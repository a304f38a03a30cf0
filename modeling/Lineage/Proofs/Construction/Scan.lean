import Lineage.Proofs.Construction.FileOrder
/-!
# The scan for dependencies

What a block refers to is found by a scan over its lines, before any section is built. The scan
misses nothing (`references_complete`): lookups that agree on the names that it finds resolve a line
alike, and the expression that a line notes names no other sections, so an heir that derives it
again looks at these sections and itself only.
-/
namespace Lineage

open Source

/-- Both lookups answer alike for these names, the owner's own apart, and neither finds a section
without a name. -/
structure Lookup.Agree (owner : Text) (names : List Text) (L M : Lookup) : Prop where
  named : ∀ x ∈ names, x ≠ owner → L x = M x
  left_nameless : L [] = none
  right_nameless : M [] = none

variable {s : Section} {names : List Text} {L M : Lookup} {raw token : Text}

namespace Reference

theorem valueOf_congr_others
    (h : ∀ x key, token.splitAt? '.' = some (x, key) → x ≠ s.name → L x = M x) :
    valueOf s L token = valueOf s M token := by
  unfold valueOf
  cases hs : token.splitAt? '.' with
  | none => rfl
  | some p =>
    obtain ⟨x, key⟩ := p
    by_cases hx : x = s.name
    · simp only [if_pos hx]
    · simp only [if_neg hx, h x key hs hx]

/-- Lookups that agree on the names in a text resolve it alike, also if they fail. -/
theorem resolve_agree (h : Lookup.Agree s.name names L M)
    (hraw : ∀ x ∈ namesFrom raw, x ≠ [] → x ∈ names) (a : Note) :
    resolve raw a s L = resolve raw a s M := by
  refine resolveFrom_congr rfl fun token ht _ => ?_
  have hvalue : valueOf s L token = valueOf s M token := by
    apply valueOf_congr_others
    intro x key hs hx
    by_cases hne : x = []
    · rw [hne, h.left_nameless, h.right_nameless]
    · exact h.named x (hraw x (mem_namesFrom.2 ⟨token, ht, key, hs⟩) hne) hx
  rw [literalOf, literalOf, hvalue]

end Reference

/-- A copy is derived alike where the sections are alike that its expression names. -/
theorem Section.rederive_agree {key : Text} {p : Property} (h : Lookup.Agree s.name names L M)
    (hp : s.get? key = some p) (hd : p.derivation = some (.expression raw))
    (hraw : ∀ x ∈ Reference.namesFrom raw, x ≠ [] → x ∈ names) (parent : Text) :
    s.rederive parent key L = s.rederive parent key M := by
  have hvalue : s.valueOfExpression raw p.note L = s.valueOfExpression raw p.note M := by
    rw [valueOfExpression, valueOfExpression, Reference.resolve_agree h hraw]
  cases hdiff : p.isDifference with
  | true => rw [rederive_of_difference hp hdiff, rederive_of_difference hp hdiff]
  | false =>
    have hcopy : s.copyValue parent L p = s.copyValue parent M p :=
      copyValue_congr rfl fun e he => by
        cases hd.symm.trans he
        exact hvalue
    rw [rederive_of_copy hp hdiff, rederive_of_copy hp hdiff, hcopy]

namespace Construction

/-- The scan of a block finds every section that a line of it looks at, in whatever section the line
stands, and every section that the expression of the line looks at, in whatever heir. -/
theorem references_complete {b : Block} {d : Declaration} (hd : d ∈ b.declarations) :
    (∀ (owner : Section) (L M : Lookup), Lookup.Agree owner.name (node b).references L M →
      Reference.resolve d.value (noteOf d) owner L = Reference.resolve d.value (noteOf d) owner M) ∧
    ∀ (owner : Section) (L : Lookup) (p : Property) (e : Text), property d owner L = .ok p →
      p.derivation = some (.expression e) →
      Reference.sectionsNamed e ⊆ (node b).references ∧
      ∀ (heir : Section) (key : Text) (q : Property) (M N : Lookup), heir.get? key = some q →
        q.derivation = some (.expression e) → Lookup.Agree heir.name (node b).references M N →
        ∀ parent, heir.rederive parent key M = heir.rederive parent key N := by
  refine ⟨fun owner L M h => ?_, fun owner L p e hp he => ?_⟩
  · apply Reference.resolve_agree h
    intro x hx hne
    exact mem_references.2 ⟨d, hd, mem_namesIn.2 ⟨hne, .inl hx⟩⟩
  · have hnames : ∀ x ∈ Reference.namesFrom e, x ≠ [] → x ∈ (node b).references := by
      intro x hx hne
      exact mem_references.2 ⟨d, hd, mem_namesIn_of_property hp he hx hne⟩
    refine ⟨fun x hx => ?_, fun heir key q M N hq hqe h parent => ?_⟩
    · obtain ⟨hx, hne⟩ := Reference.mem_sectionsNamed.1 hx
      exact hnames x hx hne
    · exact Section.rederive_agree h hq hqe hnames parent

/-- A line that refers to one section in its value and to another one in its comment. -/
def twiceReferring : Declaration := ⟨['x'], "$A.k".toList, some "# \x7b$C.k + $y\x7d".toList, 2⟩

/-- What the line is built among: both sections, and one that it does not refer to. -/
def around : List Section :=
  [⟨['A'], [], [.new ['k'] (.text ['a']) .blank]⟩, ⟨['C'], [], [.new ['k'] (.text ['c']) .blank]⟩,
    ⟨['D'], [], []⟩]

/-- An heir that holds the property of the line and the one that its expression reads. -/
def referringHeir : Section :=
  ⟨['H'], [['B']], [.new ['y'] (.text ['h']) .blank,
    (Property.new ['x'] (.text ['a'])
      ⟨none, some (.expression "$C.k + $y".toList)⟩).inheritedBy ['H']]⟩

theorem references_complete_twiceReferring :
    let b : Block := ⟨['B'], [], 1, [twiceReferring]⟩
    (∀ owner, Lookup.Agree owner (node b).references (find around) (find (around.take 2))) ∧
    Reference.resolve twiceReferring.value (noteOf twiceReferring) (.new ['B']) (find around) =
      Reference.resolve twiceReferring.value (noteOf twiceReferring) (.new ['B'])
        (find (around.take 2)) ∧
    Reference.sectionsNamed "$C.k + $y".toList ⊆ (node b).references ∧
    referringHeir.rederive ['B'] ['x'] (find around) =
      referringHeir.rederive ['B'] ['x'] (find (around.take 2)) := by
  intro b
  have hd : twiceReferring ∈ b.declarations := List.mem_singleton_self _
  have hreferences : (node b).references = [['A'], ['C']] := by decide +kernel
  have hagree (owner : Text) :
      Lookup.Agree owner (node b).references (find around) (find (around.take 2)) := by
    refine ⟨fun x hx _ => ?_, rfl, rfl⟩
    rw [hreferences, List.mem_cons, List.mem_singleton] at hx
    rcases hx with rfl | rfl <;> rfl
  have hp : property twiceReferring (.new ['B']) (find around) =
      .ok (.new ['x'] (.text ['a']) ⟨none, some (.expression "$C.k + $y".toList)⟩) := by
    with_unfolding_all rfl
  obtain ⟨hnames, hheir⟩ := (references_complete hd).2 _ _ _ _ hp rfl
  exact ⟨hagree, (references_complete hd).1 _ _ _ (hagree _), hnames,
    hheir referringHeir ['x'] _ _ _ rfl rfl (hagree _) _⟩

end Construction

end Lineage
