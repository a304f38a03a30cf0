import Lineage.Proofs.Section.Keys
import Lineage.Proofs.Section.Listed
/-!
# Assigning in a section

Assigning a value changes what stands under its key (`get?_set`) and nothing else, and so the
section is then written with one line for that key, and with other lines only as before
(`mem_written_set`).
-/
namespace Lineage.Section

variable {s : Section} {p : Property} {key : Text} {v : Value} {m : Mode}

/-- What stands under a key after a value was assigned. -/
def assigned (s : Section) (key : Text) (v : Value) : Property :=
  match s.get? key with
  | some p => p.setValue v
  | none => (Property.new key v .blank).attach s.name

theorem assigned_of_some (h : s.get? key = some p) : s.assigned key v = p.setValue v := by
  rw [assigned, h]

theorem assigned_of_none (h : s.get? key = none) :
    s.assigned key v = (Property.new key v .blank).attach s.name := by
  rw [assigned, h]

theorem value_assigned (s : Section) (key : Text) (v : Value) :
    (s.assigned key v).value = v := by
  unfold assigned
  cases s.get? key <;> rfl

theorem derivation_assigned (s : Section) (key : Text) (v : Value) :
    (s.assigned key v).note.derivation = none := by
  unfold assigned
  cases s.get? key <;> rfl

theorem get?_set (s : Section) (key : Text) (v : Value) :
    (s.set key v).get? key = some (s.assigned key v) := by
  unfold set hasKey assigned
  cases h : s.get? key with
  | none =>
    rw [Option.isSome_none, if_neg Bool.false_ne_true, get?, List.find?_append, ← get?, h]
    simp [Property.attach, Property.new]
  | some p =>
    rw [Option.isSome_some, if_pos rfl, get?, modify,
      find?_modifyFirst (f := fun p => p.setValue v) (fun _ => rfl), if_pos rfl, ← get?, h]
    rfl

theorem name_set (s : Section) (key : Text) (v : Value) : (s.set key v).name = s.name := by
  unfold set
  split <;> rfl

theorem parents_set (s : Section) (key : Text) (v : Value) :
    (s.set key v).parents = s.parents := by
  unfold set
  split <;> rfl

/-- Other keys stand as they did. -/
theorem mem_of_mem_set (h : p ∈ (s.set key v).properties) (hk : p.key ≠ key) :
    p ∈ s.properties := by
  unfold set at h
  split at h
  · rcases mem_modifyFirst h with h | ⟨q, -, hq, rfl⟩
    · exact h
    · exact absurd hq hk
  · rcases List.mem_append.1 h with h | h
    · exact h
    · exact absurd (congrArg Property.key (List.mem_singleton.1 h)) hk

theorem nodup_set (h : s.keys.Nodup) (key : Text) (v : Value) : (s.set key v).keys.Nodup := by
  unfold set hasKey
  cases hk : s.get? key with
  | none =>
    have hnot : key ∉ s.keys := get?_eq_none_iff.1 hk
    rw [Option.isSome_none, if_neg Bool.false_ne_true, keys, List.map_append, ← keys]
    apply h.append (List.nodup_singleton _)
    simpa [Property.attach, Property.new] using hnot
  | some p =>
    rw [Option.isSome_some, if_pos rfl, keys, modify,
      map_modifyFirst fun p _ => (rfl : (p.setValue v).key = p.key)]
    exact h

/-! ## Written lines -/

theorem mem_written : p ∈ s.written m ↔
    p ∈ s.properties ∧ (m == .full || p.isDifference) = true := by
  rw [written, List.mem_filter, mem_listed]

/-- A line that is written after assigning is the new one, or was written before. -/
theorem mem_written_set (hn : s.keys.Nodup) (h : p ∈ (s.set key v).written m) :
    p = s.assigned key v ∨ p.key ≠ key ∧ p ∈ s.written m := by
  rw [mem_written] at h ⊢
  by_cases hk : p.key = key
  · have hp := (get?_eq_some_iff (nodup_set hn key v)).2 ⟨h.1, hk⟩
    rw [get?_set] at hp
    exact .inl (Option.some.inj hp).symm
  · exact .inr ⟨hk, mem_of_mem_set h.1 hk, h.2⟩

end Lineage.Section
