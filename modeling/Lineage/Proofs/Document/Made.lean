import Lineage.Proofs.Document.Results
import Lineage.Proofs.Document.Session
import Lineage.Proofs.Section.Sound
/-!
# What can be made

Properties, sections and documents are made by constructors and by calls on what was made before,
calls that fail included (`Made`). Of a document that was made, section names are different, nothing
stands in it before it was built, properties are owned by their sections, what is inherited is a
copy, and keys are different in every section into which no merge has failed (`sound_of_made`).
-/
namespace Lineage

/-! ## Documents that calls leave behind -/

namespace Document

variable {d d' : Document} {fs : Files} {s t added : Section} {ss : List Section}
  {name key path : Text} {failed failed' : List Text} {f : Section → Section} {o : Options}
  {overwrite : Bool}

/-- What holds of a document if merges have failed into the sections with these names only. -/
structure Sound (d : Document) (failed : List Text) : Prop where
  names : d.names.Nodup
  /-- A document that was not built is empty. -/
  empty : d.initialized = false → d.sections = []
  marked : ∀ s ∈ d.sections, s.Marked
  keys : ∀ s ∈ d.sections, s.name ∉ failed → s.keys.Nodup

theorem sound_nil (source : Option Text) (initialized : Bool) (o : Options) :
    Sound ⟨source, [], initialized, o⟩ failed where
  names := List.nodup_nil
  empty _ := rfl
  marked := fun _ hs => nomatch hs
  keys := fun _ hs => nomatch hs

theorem sound_of_sections {t : Text} (h : Construction.sections t o = .ok ss)
    (source : Option Text) : Sound ⟨source, ss, true, o⟩ failed := by
  obtain ⟨hnames, hall⟩ := Construction.sound_of_sections h
  exact ⟨hnames, nofun, fun s hs => (hall s hs).1, fun s hs _ => (hall s hs).2⟩

theorem sound_of_parse {t : Text} (h : parse t o = .ok d) : d.Sound failed := by
  obtain ⟨ss, hs, rfl⟩ := parse_ok_iff_sections.1 h
  exact sound_of_sections hs none

theorem sound_of_reload (h : d.reload fs = .ok d') : d'.Sound failed := by
  obtain ⟨ss, hread, rfl⟩ := reload_ok_iff.1 h
  obtain ⟨_, _, _, _, hss⟩ := readSource_ok_iff.1 hread
  exact sound_of_sections hss d.source

/-- A document that was not built is empty, so no merge has failed into its sections. -/
theorem sound_of_ensureRead (h : d.ensureRead fs = .ok d') (hd : d.Sound failed) :
    d'.Sound (if d.initialized then failed else []) := by
  rcases ensureRead_ok_iff.1 h with ⟨hi, rfl⟩ | ⟨hi, ⟨-, rfl⟩ | ⟨-, h⟩⟩
  · rw [if_pos hi]
    exact hd
  · have hnil := hd.empty hi
    simp only [hnil]
    exact sound_nil _ _ _
  · exact sound_of_reload h

theorem sound_of_openFile (h : openFile fs path o = .ok d) : d.Sound failed := by
  obtain ⟨-, rfl⟩ := openFile_ok_iff.1 h
  exact sound_nil _ _ o

theorem sound_of_load (h : load fs path o = .ok d) : d.Sound [] := by
  obtain ⟨-, t, ss, -, hss, rfl⟩ := load_ok_iff.1 h
  exact sound_of_sections hss (some path)

theorem sound_of_create {r : Document × Files} (h : create fs path overwrite = .ok r) :
    r.1.Sound failed := by
  unfold create at h
  split at h
  · cases h
  · cases h
    exact sound_nil _ _ _

/-- A section that is added must be sound itself, or be among those in which a call failed. -/
theorem sound_of_add (h : d.add added = .ok d') (hd : d.Sound failed) (hm : added.Marked)
    (hk : added.name ∉ failed' → added.keys.Nodup) (hsub : failed ⊆ failed') :
    d'.Sound failed' := by
  -- the name was looked up before the section was added
  obtain ⟨hfree, rfl⟩ := add_ok_iff.1 h
  constructor
  case names =>
    unfold names
    rw [List.map_append]
    apply hd.names.append (List.nodup_singleton _)
    simpa using hfree
  case empty => exact nofun
  case marked =>
    intro s hs
    rcases List.mem_append.1 hs with hs | hs
    · exact hd.marked s hs
    · rw [List.mem_singleton.1 hs]
      exact hm
  case keys =>
    intro s hs hfailed
    rcases List.mem_append.1 hs with hs | hs
    · exact hd.keys s hs fun hin => hfailed (hsub hin)
    · rw [List.mem_singleton.1 hs] at hfailed ⊢
      exact hk hfailed

theorem names_erase (d : Document) (name : Text) :
    (d.erase name).names = d.names.erase name := by
  unfold erase names
  rw [List.erase_eq_eraseP', List.eraseP_map]
  rfl

theorem sound_erase (hd : d.Sound failed) (name : Text) :
    (d.erase name).Sound (failed.filter (· ≠ name)) := by
  have hsub : (d.erase name).sections.Sublist d.sections := List.eraseP_sublist
  constructor
  case names => exact hd.names.sublist (hsub.map _)
  case empty =>
    intro hi
    have hnil := hd.empty hi
    exact List.sublist_nil.1 (hnil ▸ hsub)
  case marked => exact fun s hs => hd.marked s (hsub.subset hs)
  case keys =>
    intro s hs hfailed
    -- only one section had the name, so none has it now
    have hname : s.name ≠ name := by
      have hin : s.name ∈ (d.erase name).names := List.mem_map_of_mem hs
      rw [names_erase, hd.names.mem_erase_iff] at hin
      exact hin.1
    refine hd.keys s (hsub.subset hs) fun hin => hfailed ?_
    exact List.mem_filter.2 ⟨hin, by simpa using hname⟩

/-! ## Calls on sections -/

/-- Changing a section keeps a document sound if the section stays so. -/
theorem sound_modify (hd : d.Sound failed) (hsub : failed ⊆ failed')
    (hname : ∀ s, s.name = name → (f s).name = name)
    (hf : ∀ s ∈ d.sections, s.name = name →
      (f s).Marked ∧ (name ∉ failed' → (f s).keys.Nodup)) :
    (d.modify name f).Sound failed' := by
  constructor
  case names =>
    unfold names modify
    rw [map_modifyFirst fun s hs => (hname s hs).trans hs.symm]
    exact hd.names
  case empty =>
    intro hi
    unfold modify
    rw [hd.empty hi]
    rfl
  case marked =>
    intro t ht
    rcases mem_modifyFirst ht with ht | ⟨s, hs, hsname, rfl⟩
    · exact hd.marked t ht
    · exact (hf s hs hsname).1
  case keys =>
    intro t ht hfailed
    rcases mem_modifyFirst ht with ht | ⟨s, hs, hsname, rfl⟩
    · exact hd.keys t ht fun hin => hfailed (hsub hin)
    · exact (hf s hs hsname).2 (hname s hsname ▸ hfailed)

theorem sound_of_set {v : Value} (h : d.set name key v = .ok d') (hd : d.Sound failed) :
    d'.Sound failed := by
  obtain ⟨-, rfl⟩ := set_ok_iff.1 h
  have hstate : ∀ s : Section, s.set key v = (s.call (.set key v)).state := fun _ => rfl
  refine sound_modify hd (List.Subset.refl _) ?_ ?_
  · intro s hs
    rw [hstate, Section.name_call]
    exact hs
  · intro s hs hname
    refine ⟨?_, fun hfailed => Section.nodup_set (hd.keys s hs (hname ▸ hfailed)) key v⟩
    rw [hstate]
    apply Section.marked_call (hd.marked s hs)
    rintro _ _ ⟨⟩

/-- The names of sections into which merges have failed, when a call on one has the result. -/
def failedWithin (name : Text) (c : Section.Call) (result : Except Fault Unit)
    (failed : List Text) : List Text :=
  match result with
  | .ok () => failed
  | .error _ => if c.isMerge then name :: failed else failed

/-- A call on a section keeps the document sound, apart from a section in which it fails. -/
theorem sound_call {c : Section.Call} (hd : d.Sound failed)
    (hc : ∀ p overwrite, c = .insert p overwrite → p.Marked) :
    (d.call name c).state.Sound (failedWithin name c (d.call name c).result failed) := by
  unfold call
  cases hs : d.section? name with
  | none => exact hd
  | some s =>
    obtain ⟨hmem, hname⟩ := section?_eq_some hs
    have hsub : failed ⊆ failedWithin name c (s.call c).result failed := by
      unfold failedWithin
      split
      · exact List.Subset.refl _
      · split
        · exact List.subset_cons_self _ _
        · exact List.Subset.refl _
    refine sound_modify hd hsub (fun _ _ => (Section.name_call s c).trans hname) ?_
    intro _ _ _
    refine ⟨Section.marked_call (hd.marked s hmem) hc, fun hfailed => ?_⟩
    have hkeys := hd.keys s hmem fun hin => hfailed (hsub (hname ▸ hin))
    -- had a merge failed, the name would be noted
    refine Section.nodup_call hkeys fun hmerge f herror => hfailed ?_
    simp only [failedWithin, herror, hmerge, if_true]
    exact List.mem_cons_self

/-- Each section is validated, or is as it was if another one has failed before it. -/
theorem validateAll_forall₂ (overwrite : Bool) (ss : List Section) :
    List.Forall₂ (fun s t => t = s ∨ t = (s.call (.validate overwrite)).state) ss
      (validateAll overwrite ss).1 := by
  induction ss with
  | nil => exact .nil
  | cons s ss ih =>
    cases hs : s.validate overwrite with
    | error f =>
      rw [validateAll_cons_error hs]
      exact List.forall₂_same.2 fun _ _ => .inl rfl
    | ok m =>
      rw [validateAll_cons_ok hs]
      refine .cons (.inr ?_) ih
      rw [Section.call_validate, hs]
      rfl

/-- A validation drops properties only, so what was sound stays so. -/
theorem sound_validate (hd : d.Sound failed) : d.validate.state.Sound failed := by
  have hall : List.Forall₂ (fun s t : Section => t.name = s.name ∧ (s.Marked → t.Marked) ∧
      (s.keys.Nodup → t.keys.Nodup)) d.sections d.validate.state.sections := by
    refine (validateAll_forall₂ d.options.overwrite d.sections).imp fun s t ht => ?_
    rcases ht with rfl | rfl
    · exact ⟨rfl, id, id⟩
    · refine ⟨Section.name_call s _, fun hm => ?_, fun hk => ?_⟩
      · apply Section.marked_call hm
        rintro _ _ ⟨⟩
      · apply Section.nodup_call hk
        rintro ⟨⟩
  have hof : ∀ t ∈ d.validate.state.sections, ∃ s ∈ d.sections, t.name = s.name ∧
      (s.Marked → t.Marked) ∧ (s.keys.Nodup → t.keys.Nodup) :=
    fun t ht => exists_right_of_forall₂ hall.flip ht
  constructor
  case names =>
    unfold names
    rw [map_eq_of_forall₂ (hall.imp fun _ _ h => h.1)]
    exact hd.names
  case empty =>
    intro hi
    rw [hd.empty hi] at hall
    exact List.forall₂_nil_left_iff.1 hall
  case marked =>
    intro t ht
    obtain ⟨s, hs, -, hm, -⟩ := hof t ht
    exact hm (hd.marked s hs)
  case keys =>
    intro t ht hfailed
    obtain ⟨s, hs, hname, -, hk⟩ := hof t ht
    exact hk (hd.keys s hs (hname ▸ hfailed))

end Document

/-! ## Sessions -/

namespace Session

variable {s : Session} {c : Call} {failed : List Text} {d : Document}

/-- The names of sections into which merges have failed, behind a call, if `addedFailed` says
whether one has failed into the section that it adds. -/
def failures (s : Session) (addedFailed : Bool) (failed : List Text) (c : Call) : List Text :=
  match c, (s.call c).result with
  | .within name c, result => Document.failedWithin name c result failed
  | .add added, .ok () => if addedFailed then added.name :: failed else failed
  | .erase name, _ => failed.filter (· ≠ name)
  | .ensureRead, .ok () => if s.document.initialized then failed else []
  | .blank _, .ok () | .parse .., .ok () | .openFile .., .ok () | .load .., .ok ()
  | .create .., .ok () | .reload, .ok () => []
  | _, _ => failed

/-- Any call keeps documents sound, if what it adds is so. -/
theorem sound_call {addedFailed : Bool} (hd : s.document.Sound failed)
    (hinsert : ∀ name p overwrite, c = .within name (.insert p overwrite) → p.Marked)
    (hadd : ∀ t, c = .add t → t.Marked ∧ (addedFailed = false → t.keys.Nodup)) :
    (s.call c).state.document.Sound (s.failures addedFailed failed c) := by
  unfold failures
  cases c with
  | blank o => exact Document.sound_nil _ _ o
  | parse t o =>
    rw [call_parse]
    cases h : Document.parse t o with
    | error f => exact hd
    | ok d => exact Document.sound_of_parse h
  | openFile path o =>
    rw [call_openFile]
    cases h : Document.openFile s.files path o with
    | error f => exact hd
    | ok d => exact Document.sound_of_openFile h
  | load path o =>
    rw [call_load]
    cases h : Document.load s.files path o with
    | error f => exact hd
    | ok d => exact Document.sound_of_load h
  | create path overwrite =>
    rw [call_create]
    cases h : Document.create s.files path overwrite with
    | error f => exact hd
    | ok r => exact Document.sound_of_create h
  | ensureRead =>
    rw [call_ensureRead]
    cases h : s.document.ensureRead s.files with
    | error f => exact hd
    | ok d => exact Document.sound_of_ensureRead h hd
  | reload =>
    rw [call_reload]
    cases h : s.document.reload s.files with
    | error f => exact hd
    | ok d => exact Document.sound_of_reload h
  | add added =>
    rw [call_add]
    obtain ⟨hmarked, hkeys⟩ := hadd added rfl
    cases h : s.document.add added with
    | error f => exact hd
    | ok d =>
      cases addedFailed with
      | false =>
        exact Document.sound_of_add h hd hmarked (fun _ => hkeys rfl) (List.Subset.refl _)
      | true =>
        refine Document.sound_of_add h hd hmarked (fun hfailed => ?_) (List.subset_cons_self _ _)
        exact absurd List.mem_cons_self hfailed
  | erase name => exact Document.sound_erase hd name
  | set name key v =>
    rw [call_set]
    cases h : s.document.set name key v with
    | error f => exact hd
    | ok d => exact Document.sound_of_set h hd
  | validate =>
    rw [call_validate]
    exact Document.sound_validate hd
  | save m =>
    rw [call_save]
    cases s.document.save s.files m <;> exact hd
  | saveAs path m overwrite =>
    rw [call_saveAs]
    cases s.document.saveAs s.files path m overwrite <;> exact hd
  | within name c =>
    rw [call_within]
    refine Document.sound_call hd fun p overwrite hc => hinsert name p overwrite ?_
    rw [hc]

end Session

/-! ## Everything that can be made -/

/-- Something that a program holds, and into which sections merges have failed. -/
inductive Item where
  | ofProperty (p : Property)
  | ofSection (s : Section) (failed : Bool)
  | ofDocument (d : Document) (failed : List Text)

/-- What constructors yield, and calls on what was made, whether they succeed or fail. Files may
hold anything; so may the parents and the other sections that a merge looks at. -/
inductive Made : Item → Prop where
  | property (key : Text) (v : Value) (note : Note) : Made (.ofProperty (.new key v note))
  | detach {p : Property} (h : Made (.ofProperty p)) : Made (.ofProperty p.detach)
  | setValue {p : Property} (h : Made (.ofProperty p)) (v : Value) :
      Made (.ofProperty (p.setValue v))
  | setComment {p : Property} (h : Made (.ofProperty p)) (c : Option Text) :
      Made (.ofProperty (p.setComment c))
  | held {s : Section} {failed : Bool} {p : Property} (h : Made (.ofSection s failed))
      (hp : p ∈ s.properties) : Made (.ofProperty p)
  | newSection (name : Text) : Made (.ofSection (.new name) false)
  | withParents {name : Text} {parents : List Section} {s : Section}
      (h : Section.withParents name parents = .ok s) : Made (.ofSection s false)
  | callSection {s : Section} {failed : Bool} (h : Made (.ofSection s failed)) (c : Section.Call)
      (hinsert : ∀ p overwrite, c = .insert p overwrite → Made (.ofProperty p)) :
      Made (.ofSection (s.call c).state (failed || c.isMerge && !(s.call c).result.isOk))
  | member {d : Document} {failed : List Text} {s : Section} (h : Made (.ofDocument d failed))
      (hs : s ∈ d.sections) : Made (.ofSection s (failed.contains s.name))
  | newDocument (o : Options) : Made (.ofDocument (.blank o) [])
  | callDocument {d : Document} {failed : List Text} (h : Made (.ofDocument d failed))
      (files : Files) (c : Session.Call) (addedFailed : Bool)
      (hinsert : ∀ name p overwrite, c = .within name (.insert p overwrite) →
        Made (.ofProperty p))
      (hadd : ∀ s, c = .add s → Made (.ofSection s addedFailed)) :
      Made (.ofDocument ((⟨d, files⟩ : Session).call c).state.document
        (Session.failures ⟨d, files⟩ addedFailed failed c))

/-- What holds of an item. -/
def Item.Sound : Item → Prop
  | ofProperty p => p.Marked
  | ofSection s failed => s.Marked ∧ (failed = false → s.keys.Nodup)
  | ofDocument d failed => d.Sound failed

/-- Everything that can be made is sound: the induction goes over how it was made. -/
theorem Made.sound {i : Item} (h : Made i) : i.Sound := by
  induction h with
  | property key v note => exact nofun
  | detach _ ih => exact fun _ => rfl
  | setValue _ v ih => exact ih
  | setComment _ c ih => exact ih
  | held _ hp ih => exact (ih.1 _ hp).2
  | newSection name => exact ⟨Section.marked_new name, fun _ => List.nodup_nil⟩
  | withParents h =>
    obtain ⟨hmarked, hkeys⟩ := Section.sound_of_withParents h
    exact ⟨hmarked, fun _ => hkeys⟩
  | @callSection s failed _ c _ ih hinsert =>
    refine ⟨Section.marked_call ih.1 fun p overwrite hc => hinsert p overwrite hc, fun hf => ?_⟩
    rw [Bool.or_eq_false_iff] at hf
    refine Section.nodup_call (ih.2 hf.1) fun hmerge f herror => ?_
    rw [hmerge, herror] at hf
    cases hf.2
  | @member d failed s _ hs ih =>
    refine ⟨ih.marked s hs, fun hf => ih.keys s hs fun hin => ?_⟩
    rw [List.contains_iff_mem.2 hin] at hf
    cases hf
  | newDocument o => exact Document.sound_nil _ _ o
  | callDocument _ files c addedFailed _ _ ih hinsert hadd =>
    exact Session.sound_call (s := ⟨_, files⟩) ih hinsert hadd

/-- Of any document that was made, section names are different, it is empty if it was not built,
properties are owned by the sections that hold them and are copies if they are inherited, and keys
are different in each section into which no merge has failed. -/
theorem sound_of_made {d : Document} {failed : List Text} (h : Made (.ofDocument d failed)) :
    d.names.Nodup ∧ (d.initialized = false → d.sections = []) ∧
      ∀ s ∈ d.sections,
        (∀ p ∈ s.properties, p.owner = some s.name ∧ (p.inherited = true → p.cloned = true)) ∧
        (s.name ∉ failed → s.keys.Nodup) := by
  have hsound : d.Sound failed := h.sound
  exact ⟨hsound.names, hsound.empty, fun s hs => ⟨hsound.marked s hs, hsound.keys s hs⟩⟩

/-- A parent was merged again where it may not override, and then removed and made anew. -/
theorem sound_of_made_remade : ∃ d failed, Made (.ofDocument d failed) ∧
    d.names = [['B'], ['A']] ∧ failed = [['B']] ∧ (∃ s ∈ d.sections, ¬ s.keys.Nodup) ∧
    d.names.Nodup ∧ ∀ s ∈ d.sections, s.name ∉ failed → s.keys.Nodup := by
  let files : Files := ⟨[], []⟩
  let parent := (Section.new ['A']).set ['x'] (.bool true)
  have h₁ := (Made.newDocument .standard).callDocument files
    (.parse "[A]\nx = true\n[B] : A\n".toList .standard) false
    (by rintro _ _ _ ⟨⟩) (by rintro _ ⟨⟩)
  have h₂ := h₁.callDocument files (.within ['B'] (.inheritWith parent false parent.only)) false
    (by rintro _ _ _ ⟨⟩) (by rintro _ ⟨⟩)
  have h₃ := h₂.callDocument files (.erase ['A']) false (by rintro _ _ _ ⟨⟩) (by rintro _ ⟨⟩)
  have h₄ := h₃.callDocument files (.add (.new ['A'])) false (by rintro _ _ _ ⟨⟩) (by
    rintro _ ⟨⟩
    exact .newSection ['A'])
  obtain ⟨hnames, -, hall⟩ := sound_of_made h₄
  exact ⟨_, _, h₄, by decide +kernel, by decide +kernel, by decide +kernel, hnames,
    fun s hs => (hall s hs).2⟩

end Lineage
