import Lineage.Document.Stored
import Lineage.Proofs.Construction.Permission
/-!
# Documents that calls yield

A call that succeeds tells what it has found: a text that stands for sections, where a document is
read (`parse_ok_iff_sections`, `load_ok_iff`, `reload_ok_iff`), the section that was asked for, or
none of that name, where one is changed (`set_ok_iff`, `add_ok_iff`). Reading a text without the
permission to override differs from reading it with the permission in one way only: it may fail,
with a duplicate key (`parse_forbidden`).
-/
namespace Lineage.Document

variable {d d' : Document} {fs : Files} {path t name key : Text} {o : Options}
  {ss : List Section} {s : Section} {v : Value}

/-! ## Reading -/

theorem parse_ok_iff_sections : parse t o = .ok d ↔
    ∃ ss, Construction.sections t o = .ok ss ∧ d = ⟨none, ss, true, o⟩ := by
  unfold parse
  cases Construction.sections t o <;> simp [Except.map, eq_comm]

theorem openFile_ok_iff : openFile fs path o = .ok d ↔
    fs.isFile path = true ∧ d = ⟨some path, [], false, o⟩ := by
  unfold openFile
  by_cases hfile : fs.isFile path = true
  · simp [hfile, eq_comm]
  · simp [hfile]

theorem readSource_ok_iff : d.readSource fs = .ok ss ↔
    ∃ path t, d.source = some path ∧ fs.readText path = .ok t ∧
      Construction.sections t d.options = .ok ss := by
  unfold readSource
  cases d.source with
  | none => simp
  | some path =>
    cases ht : fs.readText path with
    | error f => simp [ht]
    | ok t => cases hs : Construction.sections t d.options <;> simp [ht, hs]

theorem reload_ok_iff : d.reload fs = .ok d' ↔
    ∃ ss, d.readSource fs = .ok ss ∧ d' = { d with sections := ss, initialized := true } := by
  unfold reload
  cases d.readSource fs <;> simp [Except.map, eq_comm]

/-- What was built stays; without a file there is nothing to build. -/
theorem ensureRead_ok_iff : d.ensureRead fs = .ok d' ↔
    (d.initialized = true ∧ d' = d) ∨
      d.initialized = false ∧
        ((d.source = none ∧ d' = { d with initialized := true }) ∨
          d.source ≠ none ∧ d.reload fs = .ok d') := by
  unfold ensureRead
  cases hinit : d.initialized with
  | true => simp [eq_comm]
  | false => cases hsource : d.source <;> simp [eq_comm]

/-- Loading a file reads its text and builds the sections. -/
theorem load_ok_iff : load fs path o = .ok d ↔ fs.isFile path = true ∧
    ∃ t ss, fs.readText path = .ok t ∧ Construction.sections t o = .ok ss ∧
      d = ⟨some path, ss, true, o⟩ := by
  constructor
  · intro h
    unfold load at h
    cases hopen : openFile fs path o with
    | error f =>
      rw [hopen] at h
      cases h
    | ok opened =>
      rw [hopen] at h
      obtain ⟨hfile, rfl⟩ := openFile_ok_iff.1 hopen
      obtain ⟨ss, hread, rfl⟩ := reload_ok_iff.1 h
      obtain ⟨_, t, ⟨⟩, ht, hs⟩ := readSource_ok_iff.1 hread
      exact ⟨hfile, t, ss, ht, hs, rfl⟩
  · rintro ⟨hfile, t, ss, ht, hs, rfl⟩
    have hopen : openFile fs path o = .ok ⟨some path, [], false, o⟩ :=
      openFile_ok_iff.2 ⟨hfile, rfl⟩
    have hread : readSource ⟨some path, [], false, o⟩ fs = .ok ss :=
      readSource_ok_iff.2 ⟨path, t, rfl, ht, hs⟩
    unfold load
    rw [hopen]
    exact reload_ok_iff.2 ⟨ss, hread, rfl⟩

/-! ## Changing -/

theorem section?_eq_some (h : d.section? name = some s) : s ∈ d.sections ∧ s.name = name :=
  ⟨List.mem_of_find?_eq_some h, by simpa using List.find?_some h⟩

theorem isSome_section?_iff : (d.section? name).isSome = true ↔ name ∈ d.names := by
  rw [section?, List.find?_isSome, names, List.mem_map]
  simp

/-- A section is added where its name is new. -/
theorem add_ok_iff : d.add s = .ok d' ↔
    s.name ∉ d.names ∧ d' = { d with sections := d.sections ++ [s], initialized := true } := by
  unfold add
  by_cases hs : (d.section? s.name).isSome = true
  · simp [if_pos hs, isSome_section?_iff.1 hs]
  · rw [if_neg hs]
    rw [isSome_section?_iff] at hs
    simp [hs, eq_comm]

/-- A value is assigned in a section that is there. -/
theorem set_ok_iff : d.set name key v = .ok d' ↔
    (∃ s, d.section? name = some s) ∧ d' = d.modify name (·.set key v) := by
  unfold set
  cases d.section? name <;> simp [eq_comm]

/-! ## Documents that override nothing -/

open Construction Source

variable {blocks : List Block} {f : Fault}

theorem parse_of_blocks (h : Block.ofText t o.limits = .ok blocks) : parse t o =
    (sectionsOf blocks o.overwrite).map fun sections => ⟨none, sections, true, o⟩ := by
  unfold parse Construction.sections
  rw [h]

theorem parse_of_error (h : Block.ofText t o.limits = .error f) : parse t o = .error f := by
  unfold parse Construction.sections
  rw [h]
  rfl

theorem parse_ok_iff : parse t o = .ok d ↔ ∃ blocks, Block.ofText t o.limits = .ok blocks ∧
    ∃ ss, sectionsOf blocks o.overwrite = .ok ss ∧ d = ⟨none, ss, true, o⟩ := by
  cases hb : Block.ofText t o.limits with
  | error f => simp [parse_of_error hb]
  | ok blocks =>
    rw [parse_of_blocks hb]
    cases hs : sectionsOf blocks o.overwrite with
    | error f => simp [Except.map, hs]
    | ok ss => simp [Except.map, hs, eq_comm]

/-- Forbidding to override only adds duplicate keys: a text is read iff it is read with permission
and no block declares a key twice, or a key of a parent's section. Then both documents have the same
sections, and a text that is refused for this alone is refused as a duplicate key. -/
theorem parse_forbidden (t : Text) (l : Limits) :
    ((∃ d, parse t ⟨l, false⟩ = .ok d) ↔ ∃ d blocks, parse t ⟨l, true⟩ = .ok d ∧
        Block.ofText t l = .ok blocks ∧ ∀ b ∈ blocks, Once d.lookup b) ∧
      (∀ d d', parse t ⟨l, false⟩ = .ok d → parse t ⟨l, true⟩ = .ok d' →
        d.sections = d'.sections) ∧
      ∀ d f, parse t ⟨l, true⟩ = .ok d → parse t ⟨l, false⟩ = .error f →
        f.kind = .duplicateKey := by
  refine ⟨⟨?_, ?_⟩, ?_, ?_⟩
  · rintro ⟨d, h⟩
    obtain ⟨blocks, hb, ss, hss, rfl⟩ := parse_ok_iff.1 h
    obtain ⟨hpermitted, honce⟩ := sectionsOf_forbidden.1 hss
    exact ⟨⟨none, ss, true, ⟨l, true⟩⟩, blocks, parse_ok_iff.2 ⟨blocks, hb, ss, hpermitted, rfl⟩,
      hb, honce⟩
  · rintro ⟨d, blocks, h, hb, honce⟩
    obtain ⟨blocks', hb', ss, hss, rfl⟩ := parse_ok_iff.1 h
    obtain rfl : blocks = blocks' := Except.ok.inj (hb.symm.trans hb')
    exact ⟨_, parse_ok_iff.2 ⟨blocks, hb, ss, sectionsOf_forbidden.2 ⟨hss, honce⟩, rfl⟩⟩
  · intro d d' h h'
    obtain ⟨blocks, hb, ss, hss, rfl⟩ := parse_ok_iff.1 h
    obtain ⟨blocks', hb', ss', hss', rfl⟩ := parse_ok_iff.1 h'
    obtain rfl : blocks = blocks' := Except.ok.inj (hb.symm.trans hb')
    exact Except.ok.inj ((sectionsOf_forbidden.1 hss).1.symm.trans hss')
  · intro d f h hf
    obtain ⟨blocks, hb, ss, hss, -⟩ := parse_ok_iff.1 h
    rw [parse_of_blocks (o := ⟨l, false⟩) hb] at hf
    cases hs : sectionsOf blocks false with
    | error g =>
      rw [hs] at hf
      cases hf
      exact kind_of_sectionsOf hss hs
    | ok ss' =>
      rw [hs] at hf
      cases hf

/-- An heir that declares a key of its parent. -/
def redeclaringHeir : Text := "[A]\nx = 1\n[B] : A\nx = 2\n".toList

/-- With permission the heir's own line counts; without it, the text is refused. -/
theorem parse_forbidden_redeclaringHeir :
    (∃ d, parse redeclaringHeir ⟨.standard, true⟩ = .ok d) ∧
      (¬ ∃ d, parse redeclaringHeir ⟨.standard, false⟩ = .ok d) ∧
      ∀ f, parse redeclaringHeir ⟨.standard, false⟩ = .error f → f.kind = .duplicateKey := by
  obtain ⟨d, hd⟩ := exists_of_isOk (x := parse redeclaringHeir ⟨.standard, true⟩)
    (by decide +kernel)
  have hrefused : (parse redeclaringHeir ⟨.standard, false⟩).isOk = false := by decide +kernel
  refine ⟨⟨d, hd⟩, ?_, fun f => (parse_forbidden _ _).2.2 d f hd⟩
  rintro ⟨d', hd'⟩
  rw [hd'] at hrefused
  cases hrefused

end Lineage.Document
