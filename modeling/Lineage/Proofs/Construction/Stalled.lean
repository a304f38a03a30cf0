import Lineage.Proofs.Construction.Run
import Lineage.Proofs.Construction.Overrides
import Lineage.Proofs.Construction.Stopped
import Lineage.Proofs.Section.Merging
/-!
# Heirs that stall

Where every line can be declared and the blocks have an order, sections are missing for one reason
only: an expression of a parent has no value in an heir (`exists_sections_iff`). The copies of a
merge stop at such an expression (`exists_recomputes_iff`), and with them the parents of a block
(`exists_mergeParents_iff`), the block (`exists_ofBlock_iff`) and the run (`exists_builds_iff`).
-/
namespace Lineage

open Source Construction

/-! ## Copies -/

namespace Section

/-- Behind the copies `done`, the expression of one of the properties `rest` has no value in the
heir `s` of the parent. -/
inductive Stalls (s parent : Section) (L : Lookup) : (done rest : List Property) → Prop
  | here {done rest : List Property} {p : Property} {raw : Text} {f : Fault}
    (derivation : p.derivation = some (.expression raw))
    (value : (s.midway parent done (p :: rest)).valueOfExpression raw p.note L = .error f) :
    Stalls s parent L done (p :: rest)
  | later {done rest : List Property} {p : Property} {v : Value}
    (value : (s.midway parent done (p :: rest)).copyValue parent.name L p = .ok v)
    (later : Stalls s parent L (done ++ [p.copyWith s.name v]) rest) :
    Stalls s parent L done (p :: rest)

variable {s m parent : Section} {L : Lookup} {p : Property} {done rest : List Property} {v : Value}
  {f : Fault}

/-- Only an expression can be without a value in an heir. -/
theorem copyValue_error {name : Text} (h : m.copyValue name L p = .error f) :
    ∃ raw, p.derivation = some (.expression raw) ∧
      m.valueOfExpression raw p.note L = .error f := by
  unfold copyValue at h
  split at h
  · cases h
  · cases h
  · next raw hd => exact ⟨raw, hd, h⟩

theorem stalls_cons_of_error
    (h : (s.midway parent done (p :: rest)).copyValue parent.name L p = .error f) :
    Stalls s parent L done (p :: rest) := by
  obtain ⟨raw, hd, hv⟩ := copyValue_error h
  exact .here hd hv

theorem stalls_cons_iff
    (h : (s.midway parent done (p :: rest)).copyValue parent.name L p = .ok v) :
    Stalls s parent L done (p :: rest) ↔
      Stalls s parent L (done ++ [p.copyWith s.name v]) rest := by
  constructor
  · rintro (⟨hd, hv⟩ | ⟨hv, hrest⟩)
    · rw [copyValue, hd] at h
      cases h.symm.trans hv
    · obtain rfl := Except.ok.inj (h.symm.trans hv)
      exact hrest
  · exact .later h

instance Stalls.decidable (s parent : Section) (L : Lookup) :
    (done rest : List Property) → Decidable (Stalls s parent L done rest)
  | _, [] => isFalse nofun
  | done, p :: rest =>
    match h : (s.midway parent done (p :: rest)).copyValue parent.name L p with
    | .error _ => isTrue (stalls_cons_of_error h)
    | .ok v =>
      have := Stalls.decidable s parent L (done ++ [p.copyWith s.name v]) rest
      decidable_of_iff _ (stalls_cons_iff h).symm

end Section

/-! ## Parents and lines -/

namespace Construction

/-- The section `s`, which is given the parents `ps` in turn, stalls at one of them. -/
inductive MergeStalls (L : Lookup) : Section → List Text → Prop
  | here {s parent : Section} {p : Text} {ps : List Text} (found : L p = some parent)
    (stalls : s.Stalls parent L [] parent.properties) : MergeStalls L s (p :: ps)
  | later {s s' parent : Section} {p : Text} {ps : List Text} (found : L p = some parent)
    (merged : (s.inheritWith parent true L).toExcept = .ok s') (later : MergeStalls L s' ps) :
    MergeStalls L s (p :: ps)

/-- The lines can be declared wherever they stand. -/
def Stated (ds : List Declaration) : Prop := ∀ d ∈ ds, ∀ m M, ∃ q, property d m M = .ok q

variable {s : Section} {L : Lookup} {p : Text} {ps : List Text} {b : Block} {line : Nat}
  {ds : List Declaration}

/-- A section stalls at its next parent, or at a later one once that is merged. -/
theorem mergeStalls_cons_iff : MergeStalls L s (p :: ps) ↔ ∃ P, L p = some P ∧
    (s.Stalls P L [] P.properties ∨
      ∃ s', (s.inheritWith P true L).toExcept = .ok s' ∧ MergeStalls L s' ps) := by
  constructor
  · rintro (⟨hP, hstalls⟩ | ⟨hP, hm, hlater⟩)
    · exact ⟨_, hP, .inl hstalls⟩
    · exact ⟨_, hP, .inr ⟨_, hm, hlater⟩⟩
  · rintro ⟨P, hP, hstalls | ⟨s', hm, hlater⟩⟩
    · exact .here hP hstalls
    · exact .later hP hm hlater

instance MergeStalls.decidable (L : Lookup) :
    (s : Section) → (ps : List Text) → Decidable (MergeStalls L s ps)
  | _, [] => isFalse nofun
  | s, p :: ps =>
    match hP : L p with
    | none => isFalse fun h => by simpa [hP] using mergeStalls_cons_iff.1 h
    | some P =>
      match hm : (s.inheritWith P true L).toExcept with
      | .error _ =>
        decidable_of_iff (s.Stalls P L [] P.properties) (by simp [mergeStalls_cons_iff, hP, hm])
      | .ok s' =>
        have := MergeStalls.decidable L s' ps
        decidable_of_iff (s.Stalls P L [] P.properties ∨ MergeStalls L s' ps)
          (by simp [mergeStalls_cons_iff, hP, hm])

/-- A run over the blocks stalls in one of their sections. -/
inductive RunStalls : List Section → List Block → Prop
  | here {built : List Section} {b : Block} {bs : List Block}
    (stalls : MergeStalls (find built) (.new b.name) b.parents) : RunStalls built (b :: bs)
  | later {built : List Section} {b : Block} {bs : List Block} {s : Section}
    (built_next : ofBlock b (find built) true = .ok s) (later : RunStalls (built ++ [s]) bs) :
    RunStalls built (b :: bs)

variable {built : List Section} {bs : List Block}

theorem runStalls_cons_iff : RunStalls built (b :: bs) ↔
    MergeStalls (find built) (.new b.name) b.parents ∨
      ∃ s, ofBlock b (find built) true = .ok s ∧ RunStalls (built ++ [s]) bs := by
  constructor
  · rintro (hstalls | ⟨hs, hlater⟩)
    · exact .inl hstalls
    · exact .inr ⟨_, hs, hlater⟩
  · rintro (hstalls | ⟨s, hs, hlater⟩)
    · exact .here hstalls
    · exact .later hs hlater

instance RunStalls.decidable : (built : List Section) → (bs : List Block) →
    Decidable (RunStalls built bs)
  | _, [] => isFalse nofun
  | built, b :: bs =>
    match hs : ofBlock b (find built) true with
    | .error _ =>
      decidable_of_iff (MergeStalls (find built) (.new b.name) b.parents)
        (by simp [runStalls_cons_iff, hs])
    | .ok s =>
      have := RunStalls.decidable (built ++ [s]) bs
      decidable_of_iff (MergeStalls (find built) (.new b.name) b.parents ∨
        RunStalls (built ++ [s]) bs) (by simp [runStalls_cons_iff, hs])

/-- An expression of a section of the text has no value in an heir of the section. -/
def HeirStalls (t : Text) : Prop :=
  ∃ bs order, Block.ofText t Limits.standard = .ok bs ∧
    Order.construction (bs.map node) = .ok order ∧ RunStalls [] (arrange bs order)

theorem heirStalls_iff {t : Text} {order : List Nat}
    (hbs : Block.ofText t Limits.standard = .ok bs)
    (ho : Order.construction (bs.map node) = .ok order) :
    HeirStalls t ↔ RunStalls [] (arrange bs order) := by
  simp [HeirStalls, hbs, ho]

instance HeirStalls.decidable (t : Text) : Decidable (HeirStalls t) :=
  match hbs : Block.ofText t Limits.standard with
  | .error _ => isFalse fun h => by simp [HeirStalls, hbs] at h
  | .ok bs => match ho : Order.construction (bs.map node) with
    | .error _ => isFalse fun h => by simp [HeirStalls, hbs, ho] at h
    | .ok order => decidable_of_iff (RunStalls [] (arrange bs order)) (heirStalls_iff hbs ho).symm

end Construction

end Lineage
