import Mathlib.Data.List.Induction
import Lineage.Proofs.Section.Call
/-!
# Validating

`validate` looks behind each property for its key. The same can be done in two passes. The first
goes from the last property to the first and sets the marks of those whose keys it has not met yet,
by their numbers; a number without a mark yields `none`. In the second, each property takes the next
mark and stays if it is set. `validateMarking?_eq` says that every number has its mark, and that the
passes do what the call does. `validate_exact` says which properties a validation leaves.
-/
namespace Lineage.Section

/-- The numbers of the properties whose keys do not come again. -/
def lastNumbers (ps : List Property) : List (Fin ps.length) :=
  (List.finRange ps.length).filter fun i => ∀ j, i < j → (ps.get j).key ≠ (ps.get i).key

/-- Sets the mark with a number, if there is one. -/
def mark? (i : Nat) (marks : List Bool) : Option (List Bool) :=
  if i < marks.length then some (marks.set i true) else none

/-- Marks, among properties with their numbers, those whose keys were not seen before. A key that
was seen fails if overwriting is not allowed. -/
def markUnseen? (s : Section) (overwrite : Bool) :
    List (Property × Nat) → (seen : List Text) → (marks : List Bool) →
      Option (Except Fault (List Bool))
  | [], _, marks => some (.ok marks)
  | (p, i) :: rest, seen, marks =>
    if seen.contains p.key then
      if overwrite then markUnseen? s overwrite rest seen marks
      else some (.error (s.duplicateKey p.key))
    else (mark? i marks).bind (markUnseen? s overwrite rest (p.key :: seen))

/-- Each property takes the next mark and stays if it is set. Where no mark is left, none stays. -/
def retain : (marks : List Bool) → List Property → List Property
  | _, [] => []
  | [], _ :: ps => retain [] ps
  | mark :: marks, p :: ps => if mark then p :: retain marks ps else retain marks ps

/-- `validate` in two passes. Only the second one changes the section. -/
def validateMarking? (s : Section) (overwrite : Bool) : Option (Attempt Section) :=
  let unmarked := List.replicate s.properties.length false
  (s.markUnseen? overwrite s.properties.zipIdx.reverse [] unmarked).map fun
    | .error f => ⟨s, .error f⟩
    | .ok marks => ⟨{ s with properties := retain marks s.properties }, .ok ()⟩

/-- The marks of properties, as the first pass leaves them. -/
def lastMarks : List Property → List Bool
  | [] => []
  | p :: ps => (! ps.any (·.key == p.key)) :: lastMarks ps

variable {s : Section} {p : Property} {ps front back : List Property} {overwrite : Bool}
  {key : Text} {seen : List Text}

/-! ## What stays -/

/-- A property counts as the last with its key unless the key comes again. -/
theorem lastNumbers_cons (p : Property) (ps : List Property) :
    lastNumbers (p :: ps) = if p.key ∈ ps.map Property.key then (lastNumbers ps).map Fin.succ
      else 0 :: (lastNumbers ps).map Fin.succ := by
  have hfirst : (∀ j : Fin (p :: ps).length, 0 < j →
      ((p :: ps).get j).key ≠ ((p :: ps).get 0).key) ↔ p.key ∉ ps.map Property.key := by
    rw [List.mem_map, List.exists_mem_iff_get]
    simp [Fin.forall_fin_succ]
  have hlater (i : Fin ps.length) :
      (∀ j : Fin (p :: ps).length, i.succ < j → ((p :: ps).get j).key ≠ (ps.get i).key) ↔
        ∀ j, i < j → (ps.get j).key ≠ (ps.get i).key := by
    simp [Fin.forall_fin_succ]
  have hrest : ((List.finRange ps.length).map Fin.succ).filter
      (fun i => ∀ j, i < j → ((p :: ps).get j).key ≠ ((p :: ps).get i).key) =
        (lastNumbers ps).map Fin.succ := by
    rw [List.filter_map, lastNumbers]
    exact congrArg _ (List.filter_congr fun i _ => decide_eq_decide.2 (hlater i))
  have hrange : lastNumbers (p :: ps) = (0 :: (List.finRange ps.length).map Fin.succ).filter
      fun i => ∀ j, i < j → ((p :: ps).get j).key ≠ ((p :: ps).get i).key := by
    rw [← List.finRange_succ]
    rfl
  rw [hrange, List.filter_cons, hrest]
  by_cases hp : p.key ∈ ps.map Property.key
  · rw [if_pos hp, if_neg fun h => hfirst.1 (of_decide_eq_true h) hp]
  · rw [if_neg hp, if_pos (decide_eq_true (hfirst.2 hp))]

theorem keepLast_eq (ps : List Property) :
    keepLast Property.key ps = (lastNumbers ps).map ps.get := by
  induction ps with
  | nil => rfl
  | cons p ps ih =>
    have hsucc : (p :: ps).get ∘ Fin.succ = ps.get := rfl
    rw [keepLast, any_key_eq, lastNumbers_cons, ih]
    by_cases hp : p.key ∈ ps.map Property.key
    · rw [decide_eq_true hp, if_pos rfl, if_pos hp, List.map_map, hsucc]
    · rw [decide_eq_false hp, if_neg Bool.false_ne_true, if_neg hp, List.map_cons, List.map_map,
        hsucc]
      rfl

theorem retain_lastMarks (ps : List Property) :
    retain (lastMarks ps) ps = keepLast Property.key ps := by
  induction ps with
  | nil => rfl
  | cons p ps ih =>
    rw [lastMarks, retain, keepLast, ih]
    cases ps.any (·.key == p.key) <;> rfl

/-! ## The first pass -/

/-- The last repeated key is found whatever stands before it. -/
theorem lastRepeated?_append (h : lastRepeated? back = some key) (front : List Property) :
    lastRepeated? (front ++ back) = some key := by
  induction front with
  | nil => exact h
  | cons p front ih => rw [List.cons_append, lastRepeated?, ih, Option.some_or]

theorem validate_false_of_repeated (hs : s.properties = front ++ p :: back)
    (hback : (back.map Property.key).Nodup) (hp : p.key ∈ back.map Property.key) :
    s.validate false = .error (s.duplicateKey p.key) := by
  have hlast : lastRepeated? (p :: back) = some p.key := by
    rw [lastRepeated?, lastRepeated?_eq_none_iff.2 hback, Option.none_or, any_key_eq,
      decide_eq_true hp, if_pos rfl]
  simp only [validate, hs, lastRepeated?_append hlast]

theorem mark?_replicate (n : Nat) (marks : List Bool) :
    mark? n (List.replicate n false ++ false :: marks) =
      some (List.replicate n false ++ true :: marks) := by
  rw [mark?, if_pos (by simp)]
  simp

/-- One step of the pass. The property has a mark. -/
theorem markUnseen?_concat (s : Section) (overwrite : Bool) (front : List Property) (p : Property)
    (seen : List Text) (marks : List Bool) :
    s.markUnseen? overwrite (front ++ [p]).zipIdx.reverse seen
        (List.replicate (front ++ [p]).length false ++ marks) =
      if seen.contains p.key then
        if overwrite then s.markUnseen? overwrite front.zipIdx.reverse seen
          (List.replicate front.length false ++ false :: marks)
        else some (.error (s.duplicateKey p.key))
      else s.markUnseen? overwrite front.zipIdx.reverse (p.key :: seen)
        (List.replicate front.length false ++ true :: marks) := by
  have hnumbered : (front ++ [p]).zipIdx.reverse = (p, front.length) :: front.zipIdx.reverse := by
    simp [List.zipIdx_append]
  have hunmarked : List.replicate (front ++ [p]).length false ++ marks =
      List.replicate front.length false ++ false :: marks := by
    rw [List.length_append, List.length_singleton, List.replicate_succ', List.append_assoc,
      List.singleton_append]
  rw [hnumbered, hunmarked, markUnseen?, mark?_replicate, Option.bind_some]

/-- The pass over the properties in front, once those behind have their marks: it has seen the keys
behind, and did not fail there. -/
theorem markUnseen?_eq (hs : s.properties = front ++ back)
    (hseen : ∀ key, key ∈ seen ↔ key ∈ back.map Property.key)
    (hback : overwrite = true ∨ (back.map Property.key).Nodup) :
    s.markUnseen? overwrite front.zipIdx.reverse seen
        (List.replicate front.length false ++ lastMarks back) =
      some ((s.validate overwrite).map fun _ => lastMarks s.properties) := by
  -- the last property in front comes next, and then belongs to those behind
  induction front using List.reverseRecOn generalizing back seen with
  | nil =>
    rw [List.nil_append] at hs
    have hmay : overwrite = true ∨ s.keys.Nodup := by
      rw [keys, hs]
      exact hback
    rw [validate_ok_iff.2 ⟨hmay, rfl⟩, hs]
    rfl
  | append_singleton front p ih =>
    rw [List.append_assoc, List.singleton_append] at hs
    rw [markUnseen?_concat]
    by_cases hp : p.key ∈ back.map Property.key
    · rw [if_pos (List.contains_iff_mem.2 ((hseen p.key).2 hp))]
      cases overwrite with
      | false =>
        have hnodup := hback.resolve_left Bool.false_ne_true
        rw [validate_false_of_repeated hs hnodup hp]
        rfl
      | true =>
        have hseen' : ∀ key, key ∈ seen ↔ key ∈ (p :: back).map Property.key := by
          intro key
          rw [hseen, List.map_cons, List.mem_cons]
          constructor
          · exact .inr
          · rintro (rfl | h)
            · exact hp
            · exact h
        have hrest := ih hs hseen' (.inl rfl)
        rw [lastMarks, any_key_eq, decide_eq_true hp] at hrest
        exact hrest
    · have hseen' : ∀ key, key ∈ p.key :: seen ↔ key ∈ (p :: back).map Property.key := by
        intro key
        rw [List.mem_cons, List.map_cons, List.mem_cons, hseen]
      have hback' : overwrite = true ∨ ((p :: back).map Property.key).Nodup := by
        apply hback.imp_right
        intro h
        exact List.nodup_cons.2 ⟨hp, h⟩
      have hrest := ih hs hseen' hback'
      rw [lastMarks, any_key_eq, decide_eq_false hp] at hrest
      rw [if_neg fun h => hp ((hseen p.key).1 (List.contains_iff_mem.1 h))]
      exact hrest

/-- The two passes do what the call does. -/
theorem validateMarking?_eq (s : Section) (overwrite : Bool) :
    s.validateMarking? overwrite = some (s.call (.validate overwrite)) := by
  have hmarks := @markUnseen?_eq s s.properties [] overwrite [] (List.append_nil _).symm
    (fun _ => .rfl) (.inr List.nodup_nil)
  rw [lastMarks, List.append_nil] at hmarks
  rw [validateMarking?, hmarks, call_validate]
  cases h : s.validate overwrite with
  | error f => rfl
  | ok m =>
    rw [validate_ok h, ← retain_lastMarks]
    rfl

/-! ## What a validation leaves -/

theorem call_validate_of_nodup (h : s.keys.Nodup) (overwrite : Bool) :
    s.call (.validate overwrite) = ⟨s, .ok ()⟩ := by
  rw [call_validate, validate_of_nodup h]
  rfl

theorem result_validate_false_iff :
    (s.call (.validate false)).result = .ok () ↔ s.keys.Nodup := by
  constructor
  · intro h
    rw [call_validate] at h
    cases hv : s.validate false with
    | ok m => exact (validate_false_ok_iff.1 hv).1
    | error f =>
      rw [hv] at h
      cases h
  · intro h
    rw [call_validate_of_nodup h]

theorem state_validate_false (s : Section) : (s.call (.validate false)).state = s := by
  rw [call_validate]
  cases hv : s.validate false with
  | ok m => exact (validate_false_ok_iff.1 hv).2
  | error f => rfl

/-- With permission, a validation succeeds and leaves the properties whose keys do not come again,
as they were and in their order. Another one then changes nothing. Without permission, it succeeds
exactly if the keys differ, and never changes anything. The two passes do the same. -/
theorem validate_exact (s : Section) :
    (∃ m, s.call (.validate true) = ⟨m, .ok ()⟩ ∧
      m = { s with properties := (lastNumbers s.properties).map s.properties.get } ∧
      ∀ overwrite, m.call (.validate overwrite) = ⟨m, .ok ()⟩) ∧
    ((s.call (.validate false)).result = .ok () ↔ s.keys.Nodup) ∧
    (s.call (.validate false)).state = s ∧
    ∀ overwrite, s.validateMarking? overwrite = some (s.call (.validate overwrite)) := by
  refine ⟨⟨{ s with properties := keepLast Property.key s.properties }, ?_, ?_, ?_⟩,
    result_validate_false_iff, state_validate_false s, validateMarking?_eq s⟩
  · exact call_validate s true
  · rw [keepLast_eq]
  · intro overwrite
    apply call_validate_of_nodup
    exact nodup_keepLast s.properties

/-- Of two declarations of a key the first goes. -/
example : lastNumbers [.new ['x'] (.bool true) .blank, .new ['y'] (.bool true) .blank,
    .new ['x'] (.bool false) .blank] = [1, 2] := by
  decide

end Lineage.Section
