import Lineage.Document.Session
import Lineage.Proofs.Files
import Lineage.Proofs.Section.Call
/-!
# Calls that fail leave the session alone

A call, effect by effect, does what the function of its name says (`call_load`, `call_saveAs`, ...),
and does all of it or nothing (`unchanged_of_error`). Two calls have done something before they may
stop, and they do not stop there: a file that could be opened for writing can be written, and a
validation that may drop nothing leaves the sections before the one that fails as they were.
-/
namespace Lineage

/-! ## Validating all sections -/

namespace Document

open Section

variable {s m : Section} {ss : List Section} {overwrite : Bool} {f : Fault} {d : Document}

theorem validateAll_cons_ok (h : s.validate overwrite = .ok m) : validateAll overwrite (s :: ss) =
    (m :: (validateAll overwrite ss).1, (validateAll overwrite ss).2) := by
  rw [validateAll, h]

theorem validateAll_cons_error (h : s.validate overwrite = .error f) :
    validateAll overwrite (s :: ss) = (s :: ss, .error (f.inSection s.name)) := by
  rw [validateAll, h]

theorem validateAll_false (ss : List Section) : (validateAll false ss).1 = ss := by
  induction ss with
  | nil => rfl
  | cons s ss ih =>
    cases hs : s.validate false with
    | error f => rw [validateAll_cons_error hs]
    | ok m => rw [validateAll_cons_ok hs, ih, (validate_false_ok_iff.1 hs).2]

theorem nodup_of_validateAll (h : (validateAll overwrite ss).2 = .ok ()) :
    ∀ s ∈ (validateAll overwrite ss).1, s.keys.Nodup := by
  induction ss with
  | nil => exact fun s hs => nomatch hs
  | cons s ss ih =>
    cases hs : s.validate overwrite with
    | error f =>
      rw [validateAll_cons_error hs] at h
      cases h
    | ok m =>
      rw [validateAll_cons_ok hs] at h ⊢
      exact List.forall_mem_cons.2 ⟨nodup_of_validate hs, ih h⟩

/-- A validation fails at a section with a repeated key, and only without permission. -/
theorem validateAll_error (h : (validateAll overwrite ss).2 = .error f) :
    overwrite = false ∧ ∃ s ∈ ss, ¬ s.keys.Nodup := by
  induction ss with
  | nil => cases h
  | cons s ss ih =>
    cases hs : s.validate overwrite with
    | error g =>
      obtain ⟨hforbidden, hkeys, -⟩ := validate_eq_error hs
      exact ⟨hforbidden, s, List.mem_cons_self, hkeys⟩
    | ok m =>
      rw [validateAll_cons_ok hs] at h
      obtain ⟨hforbidden, t, ht, hkeys⟩ := ih h
      exact ⟨hforbidden, t, List.mem_cons_of_mem s ht, hkeys⟩

theorem validateAll_error_iff : (∃ f, (validateAll overwrite ss).2 = .error f) ↔
    overwrite = false ∧ ∃ s ∈ ss, ¬ s.keys.Nodup := by
  constructor
  · rintro ⟨f, hf⟩
    exact validateAll_error hf
  · rintro ⟨rfl, s, hs, hkeys⟩
    cases hv : (validateAll false ss).2 with
    | error f => exact ⟨f, rfl⟩
    | ok u =>
      have hall := nodup_of_validateAll hv
      rw [validateAll_false] at hall
      exact absurd (hall s hs) hkeys

/-- Where validating stops, nothing has been dropped: nothing may be. -/
theorem validate_state_of_error (h : d.validate.result = .error f) : d.validate.state = d := by
  have hforbidden := (validateAll_error h).1
  unfold validate
  rw [hforbidden]
  simp only [validateAll_false]

/-! ## Calls on a section of the document -/

variable {name : Text} {c : Section.Call}

theorem modify_self (h : d.section? name = some s) : d.modify name (fun _ => s) = d := by
  unfold modify
  rw [modifyFirst_eq_self h rfl]

theorem call_insert (d : Document) (name : Text) (p : Property) (overwrite : Bool) :
    d.call name (.insert p overwrite) =
      .keep d ((d.insert name p overwrite).map fun r => r.getD d) := by
  unfold call Document.insert
  cases hs : d.section? name with
  | none => rfl
  | some s =>
    simp only [Section.call_insert]
    cases s.insert p overwrite with
    | ok s' => rfl
    | error f => exact congrArg (Attempt.mk · (.error f)) (modify_self hs)

theorem call_inheritWith (d : Document) (name : Text) (parent : Section) (overwrite : Bool) :
    d.call name (.inheritWith parent overwrite d.lookup) = d.inherit name parent overwrite := by
  unfold call Document.inherit
  cases d.section? name with
  | none => rfl
  | some s => simp only [Section.call_inheritWith]

theorem exists_call_keep (h : c.isMerge = false) : ∃ r, d.call name c = .keep d r := by
  unfold call
  cases hs : d.section? name with
  | none => exact ⟨.ok d, rfl⟩
  | some s =>
    obtain ⟨r, hr⟩ := Section.exists_call_keep (s := s) h
    simp only [hr]
    cases r with
    | ok s' => exact ⟨.ok (d.modify name fun _ => s'), rfl⟩
    | error f => exact ⟨.error f, congrArg (Attempt.mk · (.error f)) (modify_self hs)⟩

end Document

/-! ## Calls and functions -/

namespace Session

open Effect Document

variable {s : Session} {c : Call} {d : Document} {x : Effect Session Unit} {path name key : Text}
  {o : Options} {m : Mode} {overwrite : Bool} {t : Text} {f : Fault}

/-- The session with another document. -/
def withDocument (s : Session) (d : Document) : Session := { s with document := d }

/-- The session with other files. -/
def withFiles (s : Session) (files : Files) : Session := { s with files }

/-- A constructor that does all or nothing on a document of its own does so on the session. -/
theorem attempt_construction {r : Except Fault Session}
    (h : x.attempt (s.withDocument d) = .keep (s.withDocument d) r) :
    (construction d x).attempt s = .keep s r := by
  unfold attempt construction at *
  unfold EStateM.run at *
  unfold withDocument at h
  cases hx : x { s with document := d } <;> cases r <;> simp_all [Attempt.keep]

theorem attempt_writing (s : Session) (path : Text) (overwrite : Bool) (t : Text) :
    (writing path overwrite t).attempt s =
      .keep s (match s.files.writeText path overwrite t with
        | .error f => .error (writeFault path f)
        | .ok files => .ok (s.withFiles files)) := by
  unfold writing
  rw [attempt_get_bind]
  cases s.files.writeText path overwrite t <;> rfl

/-- The file that was opened is there, so writing to it does not fail. -/
theorem attempt_saving (s : Session) (path : Text) (m : Mode) (overwrite : Bool) :
    (saving path m overwrite).attempt s =
      .keep s ((s.document.saveAs s.files path m overwrite).map s.withFiles) := by
  have hopened := attempt_writing s path overwrite []
  unfold saving saveAs
  cases h : s.files.writeText path overwrite [] with
  | error f =>
    rw [h] at hopened
    rw [attempt_bind_of_error hopened, Files.writeText_of_error h]
    rfl
  | ok files =>
    rw [h] at hopened
    rw [attempt_bind_of_ok hopened, attempt_get_bind, attempt_writing]
    have hwritten := Files.writeText_writeText h (s.document.render m)
    -- what could be opened could have been written at once
    cases hdirect : s.files.writeText path overwrite (s.document.render m) with
    | error f =>
      rw [Files.writeText_of_error hdirect] at h
      cases h
    | ok files' =>
      rw [hdirect] at hwritten
      simp only [withFiles, hwritten]
      rfl

theorem attempt_reading (s : Session) : reading.attempt s =
    .keep s ((s.document.readSource s.files).map fun sections =>
      s.withDocument { s.document with sections }) := by
  unfold reading
  rw [attempt_get_bind]
  cases s.document.readSource s.files <;> rfl

theorem attempt_reload (s : Session) :
    attempt (reading >>= fun _ => marking) s =
      .keep s ((s.document.reload s.files).map s.withDocument) := by
  have hread := attempt_reading s
  unfold reload
  cases h : s.document.readSource s.files with
  | error f =>
    rw [h] at hread
    exact attempt_bind_of_error hread
  | ok sections =>
    rw [h] at hread
    exact attempt_bind_of_ok hread

/-- Reading on first use does all or nothing. -/
theorem attempt_firstReading (s : Session) : firstReading.attempt s =
    .keep s ((s.document.ensureRead s.files).map s.withDocument) := by
  unfold firstReading ensureRead
  rw [attempt_get_bind]
  -- a document without a file counts as built from then on
  cases hinit : s.document.initialized with
  | true =>
    simp only [hinit, if_true]
    rfl
  | false =>
    cases hsource : s.document.source with
    | none =>
      simp only [hinit, hsource, Bool.false_eq_true, if_false, Option.isSome_none,
        Option.isNone_none, if_true]
      simp only [marking, changeDocument, attempt_change, hsource]
      rfl
    | some path =>
      simp only [hinit, hsource, Bool.false_eq_true, if_false, Option.isSome_some,
        Option.isNone_some, if_true]
      exact attempt_reload s

theorem attempt_checkFile (s : Session) (path : Text) : (checkFile path).attempt s =
    .keep s (if s.files.isFile path then .ok s
      else .error ((Fault.of .sourceMissing).inFile path)) := by
  unfold checkFile
  rw [attempt_get_bind]
  cases s.files.isFile path <;> rfl

theorem attempt_building (s : Session) (t : Text) (o : Options) : (building t o).attempt s =
    .keep s ((Construction.sections t o).map fun sections =>
      s.withDocument { s.document with sections, initialized := true }) := by
  unfold building
  cases Construction.sections t o <;> rfl

/-! ## Spec of each call -/

theorem call_blank (s : Session) (o : Options) :
    s.call (.blank o) = ⟨s.withDocument (.blank o), .ok ()⟩ := rfl

theorem call_parse (s : Session) (t : Text) (o : Options) :
    s.call (.parse t o) = .keep s ((Document.parse t o).map s.withDocument) := by
  apply attempt_construction
  rw [attempt_building]
  unfold Document.parse
  cases Construction.sections t o <;> rfl

theorem call_openFile (s : Session) (path : Text) (o : Options) :
    s.call (.openFile path o) = .keep s ((openFile s.files path o).map s.withDocument) := by
  apply attempt_construction
  rw [attempt_checkFile]
  unfold openFile
  change Attempt.keep _ (if s.files.isFile path = true then _ else _) = _
  split <;> rfl

theorem call_load (s : Session) (path : Text) (o : Options) :
    s.call (.load path o) = .keep s ((load s.files path o).map s.withDocument) := by
  apply attempt_construction
  have hcheck := attempt_checkFile (s.withDocument ⟨some path, [], false, o⟩) path
  unfold load openFile
  change _ = Attempt.keep _ (if s.files.isFile path = true then _ else _) at hcheck
  by_cases hfile : s.files.isFile path = true
  · rw [if_pos hfile] at hcheck ⊢
    exact (attempt_bind_of_ok hcheck).trans (attempt_firstReading _)
  · rw [if_neg hfile] at hcheck ⊢
    exact attempt_bind_of_error hcheck

theorem call_create (s : Session) (path : Text) (overwrite : Bool) :
    s.call (.create path overwrite) =
      .keep s ((create s.files path overwrite).map fun r => ⟨r.1, r.2⟩) := by
  apply attempt_construction
  rw [attempt_writing]
  unfold create
  cases h : s.files.writeText path overwrite [] <;> simp only [withDocument, h] <;> rfl

theorem call_ensureRead (s : Session) :
    s.call .ensureRead = .keep s ((s.document.ensureRead s.files).map s.withDocument) :=
  attempt_firstReading s

theorem call_reload (s : Session) :
    s.call .reload = .keep s ((s.document.reload s.files).map s.withDocument) :=
  attempt_reload s

theorem call_add (s : Session) (added : Section) :
    s.call (.add added) = .keep s ((s.document.add added).map s.withDocument) := by
  unfold call Call.program addition add
  rw [attempt_get_bind]
  cases (s.document.section? added.name).isSome <;> rfl

theorem call_erase (s : Session) (name : Text) :
    s.call (.erase name) = ⟨s.withDocument (s.document.erase name), .ok ()⟩ := rfl

theorem call_set (s : Session) (name key : Text) (v : Value) :
    s.call (.set name key v) = .keep s ((s.document.set name key v).map s.withDocument) := by
  unfold call Call.program Document.set
  simp only
  rw [attempt_get_bind]
  cases s.document.section? name <;> rfl

theorem call_saveAs (s : Session) (path : Text) (m : Mode) (overwrite : Bool) :
    s.call (.saveAs path m overwrite) =
      .keep s ((s.document.saveAs s.files path m overwrite).map s.withFiles) :=
  attempt_saving s path m overwrite

theorem call_save (s : Session) (m : Mode) :
    s.call (.save m) = .keep s ((s.document.save s.files m).map s.withFiles) := by
  unfold call Call.program save
  simp only
  rw [attempt_get_bind]
  cases s.document.source with
  | none => rfl
  | some path => exact attempt_saving s path m true

theorem attempt_attempting (s : Session) (f : Document → Attempt Document) :
    (attempting f).attempt s =
      ⟨s.withDocument (f s.document).state, (f s.document).result⟩ := by
  unfold attempt attempting EStateM.run
  cases h : (f s.document).result <;> simp only [h] <;> rfl

theorem call_validate (s : Session) : s.call .validate =
    ⟨s.withDocument s.document.validate.state, s.document.validate.result⟩ :=
  attempt_attempting s Document.validate

theorem call_within (s : Session) (name : Text) (c : Section.Call) : s.call (.within name c) =
    ⟨s.withDocument (s.document.call name c).state, (s.document.call name c).result⟩ :=
  attempt_attempting s (·.call name c)

/-! ## Failing -/

/-- Every call does all or nothing, apart from merges. -/
theorem exists_call_keep (h : c.isMerge = false) : ∃ r, s.call c = .keep s r := by
  cases c with
  | blank o => exact ⟨.ok _, call_blank s o⟩
  | parse t o => exact ⟨_, call_parse s t o⟩
  | openFile path o => exact ⟨_, call_openFile s path o⟩
  | load path o => exact ⟨_, call_load s path o⟩
  | create path overwrite => exact ⟨_, call_create s path overwrite⟩
  | ensureRead => exact ⟨_, call_ensureRead s⟩
  | reload => exact ⟨_, call_reload s⟩
  | add added => exact ⟨_, call_add s added⟩
  | erase name => exact ⟨.ok _, call_erase s name⟩
  | set name key v => exact ⟨_, call_set s name key v⟩
  | save m => exact ⟨_, call_save s m⟩
  | saveAs path m overwrite => exact ⟨_, call_saveAs s path m overwrite⟩
  | validate =>
    rw [call_validate]
    cases hv : s.document.validate.result with
    | ok u => exact ⟨.ok (s.withDocument s.document.validate.state), rfl⟩
    | error f => exact ⟨.error f, by rw [validate_state_of_error hv]; rfl⟩
  | within name c =>
    rw [call_within]
    obtain ⟨r, hr⟩ : ∃ r, s.document.call name c = .keep s.document r :=
      Document.exists_call_keep h
    rw [hr]
    cases r with
    | ok d => exact ⟨.ok (s.withDocument d), rfl⟩
    | error f => exact ⟨.error f, rfl⟩

/-- A call that fails leaves the document and all files as they were, unless it merges. Validating
fails exactly if a key is repeated and none may be dropped, and else drops every repeated one. -/
theorem unchanged_of_error (s : Session) :
    (∀ c f, c.isMerge = false → (s.call c).result = .error f → (s.call c).state = s) ∧
    ((∃ f, (s.call .validate).result = .error f) ↔
      s.document.options.overwrite = false ∧ ∃ t ∈ s.document.sections, ¬ t.keys.Nodup) ∧
    ((s.call .validate).result = .ok () →
      ∀ t ∈ (s.call .validate).state.document.sections, t.keys.Nodup) := by
  refine ⟨?_, ?_, ?_⟩
  · intro c f hc hf
    obtain ⟨r, hr⟩ := exists_call_keep (s := s) hc
    rw [hr] at hf ⊢
    exact Attempt.state_of_keep hf
  · rw [call_validate]
    exact validateAll_error_iff
  · intro hok
    rw [call_validate] at hok ⊢
    exact nodup_of_validateAll hok

/-- A document with a key twice, which may not be, and a file. -/
def repeating : Session :=
  { document := ⟨some ['f'], [⟨['A'], [], [.new ['x'] (.bool true) .blank,
      .new ['x'] (.bool false) .blank]⟩], true, ⟨.unlimited, false⟩⟩
    files := ⟨[([['f']], .file (String.ofList ['[', 'A', ']']).toUTF8)], []⟩ }

/-- It cannot be validated, nor saved over the file without permission. -/
theorem unchanged_of_error_repeating :
    (∃ f, (repeating.call .validate).result = .error f) ∧
      (repeating.call .validate).state = repeating ∧
      (repeating.call (.saveAs ['f'] .full false)).state = repeating := by
  obtain ⟨hkept, hfails, -⟩ := unchanged_of_error repeating
  have hvalidate : ∃ f, (repeating.call .validate).result = .error f :=
    hfails.2 ⟨rfl, _, List.mem_singleton_self _, by decide +kernel⟩
  refine ⟨hvalidate, ?_, ?_⟩
  · obtain ⟨f, hf⟩ := hvalidate
    exact hkept _ f rfl hf
  · apply hkept _ ((Fault.of .destinationExists).inFile ['f']) rfl
    with_unfolding_all rfl

end Session
end Lineage
