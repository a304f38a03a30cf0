import Lineage.Proofs.Command.Set
import Lineage.Proofs.Document.Made
import Lineage.Proofs.Source.Headers
/-!
# Sections that stay in a file

Calls that edit a document read its file, change it without taking a section away, or write it to
its file (`edits_of_call`). So once the file has been read, every save leaves a header for every
section that the file had (`hasHeader_of_saved`). A document that is saved before its file was read
is empty, and so is the file then (`not_hasHeader_of_unread`).
-/
namespace Lineage

open Source Construction

/-! ## Names of sections -/

namespace Document

variable {d d' : Document} {fs : Files} {ss : List Section} {name key : Text}

theorem names_of_readSource {path t : Text} (hd : d.source = some path)
    (ht : fs.readText path = .ok t) (h : d.readSource fs = .ok ss) :
    HasHeader t name ↔ name ∈ ss.map Section.name := by
  obtain ⟨path', t', hd', ht', hss⟩ := readSource_ok_iff.1 h
  obtain rfl : path = path' := Option.some.inj (hd.symm.trans hd')
  obtain rfl : t = t' := Except.ok.inj (ht.symm.trans ht')
  obtain ⟨blocks, hblocks, hbuilt⟩ := sections_ok hss
  rw [hasHeader_iff hblocks, (finished_of_sectionsOf hbuilt).names]

theorem names_of_set {v : Value} (h : d.set name key v = .ok d') : d'.names = d.names := by
  obtain ⟨-, rfl⟩ := set_ok_iff.1 h
  exact map_modifyFirst (fun s _ => Section.name_call s (.set key v)) d.sections

theorem names_validate (d : Document) : d.validate.state.names = d.names := by
  refine map_eq_of_forall₂ ?_
  refine (validateAll_forall₂ d.options.overwrite d.sections).imp fun s t ht => ?_
  rcases ht with rfl | rfl
  · rfl
  · exact Section.name_call s _

theorem hasHeader_render {m : Mode} (h : name ∈ d.names) (hn : ReadableName name) :
    HasHeader (d.render m) name := by
  obtain ⟨s, hs, rfl⟩ := List.mem_map.1 h
  rw [render, renderSections_eq_print]
  exact hasHeader_print (b := s.block m) (List.mem_map_of_mem hs) hn

end Document

namespace Session

variable {s s' : Session} {c : Call} {cs : List Call} {path : Text} {N : Text → Prop}

/-! ## Runs of calls -/

/-- The session after some calls, whether they succeed or fail. -/
def calls (s : Session) (cs : List Call) : Session := cs.foldl (fun s c => (s.call c).state) s

/-- Whether the call edits a document, or reads or writes its file, and takes no section away. -/
def Call.isEdit : Call → Bool
  | ensureRead | reload | add _ | set .. | validate | save _ => true
  | _ => false

/-- Whether the call succeeds in reading the file of the document. -/
def reads (s : Session) (c : Call) : Bool :=
  (s.call c).result.isOk && match c with
    | .load .. | .reload => true
    | .ensureRead => !s.document.initialized && s.document.source.isSome
    | _ => false

/-- Whether the call succeeds in saving the document. -/
def saves (s : Session) (c : Call) : Bool :=
  (s.call c).result.isOk && match c with
    | .save _ => true
    | _ => false

/-- Whether one of the calls reads the file before any of them saves the document. -/
def readsFirst (s : Session) : List Call → Bool
  | [] => false
  | c :: cs => s.reads c || (!s.saves c && readsFirst (s.call c).state cs)

/-! ## Single calls -/

/-- What an edit makes of a session. -/
inductive Edits (s : Session) (c : Call) : Session → Prop where
  /-- The sections are built from the file. -/
  | reading (ss : List Section) (saves : s.saves c = false)
      (source : s.document.readSource s.files = .ok ss) :
      Edits s c (s.withDocument { s.document with sections := ss, initialized := true })
  /-- The document changes, but keeps its file and its sections. Or nothing changes. -/
  | changing (d : Document) (reads : s.reads c = false) (source : d.source = s.document.source)
      (names : s.document.names ⊆ d.names) : Edits s c (s.withDocument d)
  /-- The document is written to its file. -/
  | saving (m : Mode) (files : Files) (saves : s.saves c = true) (reads : s.reads c = false)
      (written : s.document.save s.files m = .ok files) : Edits s c (s.withFiles files)

theorem not_reads_of_error {f : Fault} (h : (s.call c).result = .error f) : s.reads c = false := by
  unfold reads
  rw [h]
  exact Bool.false_and _

/-- A call that fails is an edit that changes nothing. -/
theorem edits_of_error {f : Fault} (h : s.call c = ⟨s, .error f⟩) : Edits s c (s.call c).state := by
  have hreads : s.reads c = false := not_reads_of_error (f := f) (by rw [h])
  rw [h]
  exact .changing s.document hreads rfl (List.Subset.refl _)

theorem edits_of_reload (hc : c = .reload ∨ c = .ensureRead ∧ s.document.initialized = false)
    {d : Document} (h : s.document.reload s.files = .ok d) : Edits s c (s.withDocument d) := by
  have hsaves : s.saves c = false := by
    rcases hc with rfl | ⟨rfl, -⟩ <;> exact Bool.and_false _
  obtain ⟨ss, hread, rfl⟩ := Document.reload_ok_iff.1 h
  exact .reading ss hsaves hread

/-- A call that does all or nothing is an edit if it is one where it succeeds. -/
theorem edits_of_keep {α : Type} {r : Except Fault α} {g : α → Session}
    (hcall : s.call c = .keep s (r.map g)) (hok : ∀ a, r = .ok a → Edits s c (g a)) :
    Edits s c (s.call c).state := by
  cases r with
  | error f => exact edits_of_error hcall
  | ok a =>
    rw [hcall]
    exact hok a rfl

/-- Each edit does one of three things. -/
theorem edits_of_call (hc : c.isEdit = true) : Edits s c (s.call c).state := by
  cases c with
  | ensureRead =>
    refine edits_of_keep (call_ensureRead s) fun d h => ?_
    rcases Document.ensureRead_ok_iff.1 h with ⟨hinit, rfl⟩ | ⟨hinit, ⟨hnone, rfl⟩ | ⟨-, h⟩⟩
    · -- it is not read again
      refine .changing s.document ?_ rfl (List.Subset.refl _)
      simp [reads, hinit]
    · -- there is no file to read
      refine .changing _ ?_ rfl (List.Subset.refl _)
      simp [reads, hnone]
    · exact edits_of_reload (.inr ⟨rfl, hinit⟩) h
  | reload => exact edits_of_keep (call_reload s) fun d h => edits_of_reload (.inl rfl) h
  | add added =>
    refine edits_of_keep (call_add s added) fun d h => ?_
    obtain ⟨-, rfl⟩ := Document.add_ok_iff.1 h
    refine .changing _ (Bool.and_false _) rfl ?_
    intro x hx
    simp only [Document.names, List.map_append, List.mem_append]
    exact .inl hx
  | set name key v =>
    refine edits_of_keep (call_set s name key v) fun d h => ?_
    exact .changing d (Bool.and_false _) (Document.source_of_set h)
      (Document.names_of_set h ▸ List.Subset.refl _)
  | validate =>
    rw [call_validate]
    refine .changing _ (Bool.and_false _) rfl ?_
    rw [Document.names_validate]
    exact List.Subset.refl _
  | save m =>
    refine edits_of_keep (call_save s m) fun files h => ?_
    have hsaves : s.saves (.save m) = true := by
      rw [saves, call_save, h]
      rfl
    exact .saving m files hsaves (Bool.and_false _) h
  | blank _ | parse _ _ | openFile _ _ | load _ _ | create _ _ | erase _ | saveAs _ _ _
    | within _ _ => cases hc

/-! ## What stays -/

/-- The document is bound to the file at the path, which has a header for each of the names. -/
structure Keeps (N : Text → Prop) (path : Text) (s : Session) : Prop where
  source : s.document.source = some path
  headers : ∃ t, s.files.readText path = .ok t ∧ ∀ x, N x → HasHeader t x

/-- The document has a section for each of the names, too. -/
structure Holds (N : Text → Prop) (path : Text) (s : Session) : Prop extends Keeps N path s where
  names : ∀ x, N x → x ∈ s.document.names

/-- A session whose file was read holds the sections of the file. -/
theorem Keeps.holds (h : Keeps N path s) {ss : List Section}
    (hread : s.document.readSource s.files = .ok ss) :
    Holds N path (s.withDocument { s.document with sections := ss, initialized := true }) := by
  obtain ⟨t, ht, hall⟩ := h.headers
  refine ⟨⟨h.source, t, ht, hall⟩, ?_⟩
  intro x hx
  exact (Document.names_of_readSource h.source ht hread).1 (hall x hx)

/-- A file to which a document with the sections was saved has their headers. -/
theorem Holds.saved (h : Holds N path s) {m : Mode} {files : Files}
    (hw : s.document.save s.files m = .ok files) : Holds N path (s.withFiles files) := by
  obtain ⟨t, ht, hall⟩ := h.headers
  have hread := (Files.readText_of_writeText (Document.writeText_of_save h.source hw)).2
  refine ⟨⟨h.source, _, hread, ?_⟩, h.names⟩
  intro x hx
  -- a name that was read from a header can be written as one
  exact Document.hasHeader_render (h.names x hx) (hall x hx).readableName

theorem Keeps.edit (h : Keeps N path s) (he : Edits s c s') (hc : s.saves c = false) :
    Keeps N path s' := by
  cases he with
  | reading ss _ hread => exact (h.holds hread).toKeeps
  | changing d _ hsource => exact ⟨hsource.trans h.source, h.headers⟩
  | saving m files hsaves =>
    rw [hc] at hsaves
    cases hsaves

theorem Keeps.read (h : Keeps N path s) (he : Edits s c s') (hc : s.reads c = true) :
    Holds N path s' := by
  cases he with
  | reading ss _ hread => exact h.holds hread
  | changing d hreads =>
    rw [hc] at hreads
    cases hreads
  | saving m files _ hreads =>
    rw [hc] at hreads
    cases hreads

theorem Holds.edit (h : Holds N path s) (he : Edits s c s') : Holds N path s' := by
  cases he with
  | reading ss _ hread => exact h.toKeeps.holds hread
  | changing d _ hsource hnames =>
    exact ⟨⟨hsource.trans h.source, h.headers⟩, fun x hx => hnames (h.names x hx)⟩
  | saving m files _ _ hw => exact h.saved hw

/-! ## Runs -/

theorem Holds.calls (h : Holds N path s) (hcs : ∀ c ∈ cs, c.isEdit = true) :
    Holds N path (s.calls cs) := by
  induction cs generalizing s with
  | nil => exact h
  | cons c cs ih =>
    apply ih
    · exact h.edit (edits_of_call (hcs c List.mem_cons_self))
    · intro c' hc'
      exact hcs c' (List.mem_cons_of_mem c hc')

/-- Up to its first reading a run does not save, and from then on it holds the sections. -/
theorem Keeps.calls (h : Keeps N path s) (hcs : ∀ c ∈ cs, c.isEdit = true)
    (hread : s.readsFirst cs = true) : Holds N path (s.calls cs) := by
  induction cs generalizing s with
  | nil => cases hread
  | cons c cs ih =>
    have he : Edits s c (s.call c).state := edits_of_call (hcs c List.mem_cons_self)
    have hcs' : ∀ c' ∈ cs, c'.isEdit = true := by
      intro c' hc'
      exact hcs c' (List.mem_cons_of_mem c hc')
    rw [readsFirst, Bool.or_eq_true, Bool.and_eq_true, Bool.not_eq_true'] at hread
    rcases hread with hreads | ⟨hsaves, hrest⟩
    · exact (h.read he hreads).calls hcs'
    · exact ih (h.edit he hsaves) hcs' hrest

/-- Opening a file binds the document to it. -/
theorem keeps_of_openFile {o : Options} {t : Text} (hfile : s.files.isFile path = true)
    (ht : s.files.readText path = .ok t) :
    Keeps (HasHeader t) path (s.call (.openFile path o)).state := by
  have hopen : Document.openFile s.files path o = .ok ⟨some path, [], false, o⟩ := if_pos hfile
  rw [call_openFile, hopen]
  exact ⟨rfl, t, ht, fun _ => id⟩

/-- Loading a file opens it and reads it. -/
theorem holds_of_load {o : Options} {t : Text} {d : Document}
    (h : Document.load s.files path o = .ok d) (ht : s.files.readText path = .ok t) :
    Holds (HasHeader t) path (s.call (.load path o)).state := by
  obtain ⟨-, t', ss, ht', hss, rfl⟩ := Document.load_ok_iff.1 h
  obtain rfl : t = t' := Except.ok.inj (ht.symm.trans ht')
  obtain ⟨blocks, hblocks, hbuilt⟩ := sections_ok hss
  rw [call_load, h]
  refine ⟨⟨rfl, t, ht, fun _ => id⟩, ?_⟩
  intro x hx
  rw [hasHeader_iff hblocks, ← (finished_of_sectionsOf hbuilt).names] at hx
  exact hx

/-- A run of edits that begins by opening a file that can be loaded, and reads it before it saves
for the first time, leaves a header for every section of the file after each save. A save that
fails leaves them, too. -/
theorem hasHeader_of_saved {t : Text} {o : Options} {d : Document} {opening : Call} {m : Mode}
    (hload : Document.load s.files path o = .ok d) (ht : s.files.readText path = .ok t)
    (hopening : opening = .openFile path o ∨ opening = .load path o)
    (hcs : ∀ c ∈ cs, c.isEdit = true) (hread : s.readsFirst (opening :: cs) = true) :
    ∃ t', ((s.calls (opening :: cs)).call (.save m)).state.files.readText path = .ok t' ∧
      ∀ x, HasHeader t x → HasHeader t' x := by
  have hholds : Holds (HasHeader t) path (s.calls (opening :: cs)) := by
    rcases hopening with rfl | rfl
    · have hkeeps : Keeps (HasHeader t) path (s.call (.openFile path o)).state :=
        keeps_of_openFile (Document.load_ok_iff.1 hload).1 ht
      have hfirst : (s.call (.openFile path o)).state.readsFirst cs = true := by
        simpa [readsFirst, reads, saves] using hread
      exact hkeeps.calls hcs hfirst
    · exact (holds_of_load hload ht).calls hcs
  exact (hholds.edit (edits_of_call (c := .save m) rfl)).headers

/-- A session around a file with an heir, which has not been opened. -/
def unopened : Session :=
  ⟨.blank .standard,
    ⟨[([['f']], .file (String.ofList "[A]\nx = 1\n[B] : A\n".toList).toUTF8)], []⟩⟩

theorem load_unopened : ∃ d t, Document.load unopened.files ['f'] .standard = .ok d ∧
    unopened.files.readText ['f'] = .ok t ∧ HasHeader t ['B'] := by
  obtain ⟨d, hd, hname⟩ := exists_ok_of_any (x := Document.load unopened.files ['f'] .standard)
    (p := fun d => d.names.contains ['B']) (by decide +kernel)
  obtain ⟨-, t, ss, ht, hss, rfl⟩ := Document.load_ok_iff.1 hd
  obtain ⟨blocks, hblocks, hbuilt⟩ := sections_ok hss
  refine ⟨_, t, hd, ht, (hasHeader_iff hblocks).2 ?_⟩
  rw [← (finished_of_sectionsOf hbuilt).names]
  exact List.contains_iff_mem.1 hname

/-- A document that is opened, read and changed, saved and read again, and saved once more. -/
theorem hasHeader_of_saved_unopened :
    let edits : List Call := [.ensureRead, .add (.new ['C']), .save .diff, .reload,
      .set ['A'] ['x'] (.bool true)]
    let opening : Call := .openFile ['f'] .standard
    (∀ c ∈ edits, c.isEdit = true) ∧ unopened.readsFirst (opening :: edits) = true ∧
      ((unopened.calls (opening :: edits)).call (.save .full)).result.isOk = true ∧
      ∃ t', ((unopened.calls (opening :: edits)).call (.save .full)).state.files.readText ['f'] =
        .ok t' ∧ HasHeader t' ['B'] := by
  intro edits opening
  obtain ⟨d, t, hload, ht, hheader⟩ := load_unopened
  have hedits : ∀ c ∈ edits, c.isEdit = true := by
    simp [edits, Call.isEdit]
  have hread : unopened.readsFirst (opening :: edits) = true := by decide +kernel
  obtain ⟨t', ht', hall⟩ := hasHeader_of_saved (m := .full) hload ht (.inl rfl) hedits hread
  exact ⟨hedits, hread, by decide +kernel, t', ht', hall _ hheader⟩

/-- Saved before it is read, the document has no section, and then the file has none either. -/
theorem not_hasHeader_of_unread :
    let opened : Session := unopened.calls [.openFile ['f'] .standard]
    (∃ d t, Document.load unopened.files ['f'] .standard = .ok d ∧
      unopened.files.readText ['f'] = .ok t ∧ HasHeader t ['B']) ∧
      (opened.call (.save .full)).result.isOk = true ∧
      ∃ t', (opened.call (.save .full)).state.files.readText ['f'] = .ok t' ∧
        ¬ HasHeader t' ['B'] := by
  intro opened
  have hempty : (opened.call (.save .full)).state.files.readText ['f'] = .ok [] :=
    eq_of_toOption_eq (by decide +kernel) (by decide +kernel)
  refine ⟨load_unopened, by decide +kernel, [], hempty, ?_⟩
  rintro ⟨line, hline, -⟩
  cases hline

end Session

end Lineage
