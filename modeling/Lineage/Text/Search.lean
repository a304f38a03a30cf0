import Lineage.Text.Lines
/-!
# Characters and words inside a text

Cutting a text at the first place where a character or a word stands, and writing another word in
its place. Places are taken from left to right and do not overlap.
-/
namespace Lineage.Text

/-- The text before and after the first `c`. -/
def splitAt? (c : Char) : Text → Option (Text × Text)
  | [] => none
  | d :: r => if d = c then some ([], r) else (splitAt? c r).map fun p => (d :: p.1, p.2)

theorem splitAt?_eq_none_iff {c : Char} {t : Text} : splitAt? c t = none ↔ c ∉ t := by
  induction t with
  | nil => simp [splitAt?]
  | cons d r ih =>
    by_cases h : d = c
    · simp [splitAt?, h]
    · simp [splitAt?, h, ih, Ne.symm h]

theorem splitAt?_append {c : Char} {s : Text} (h : c ∉ s) (r : Text) :
    splitAt? c (s ++ c :: r) = some (s, r) := by
  induction s with
  | nil => simp [splitAt?]
  | cons d s ih =>
    simp only [List.mem_cons, not_or] at h
    simp [splitAt?, Ne.symm h.1, ih h.2]

theorem splitAt?_append_left {c : Char} {a : Text} (h : c ∉ a) (t : Text) :
    splitAt? c (a ++ t) = (splitAt? c t).map fun p => (a ++ p.1, p.2) := by
  induction a with
  | nil => simp
  | cons d a ih =>
    simp only [List.mem_cons, not_or] at h
    rw [List.cons_append, splitAt?, if_neg (Ne.symm h.1), ih h.2, Option.map_map]
    rfl

theorem splitAt?_append_right {c : Char} {b : Text} (h : c ∉ b) (t : Text) :
    splitAt? c (t ++ b) = (splitAt? c t).map fun p => (p.1, p.2 ++ b) := by
  induction t with
  | nil => simpa [splitAt?] using splitAt?_eq_none_iff.2 h
  | cons d t ih =>
    rw [List.cons_append, splitAt?, splitAt?]
    split
    · rfl
    · rw [ih, Option.map_map, Option.map_map]
      rfl

/-- A text is cut at the first place of the character. -/
theorem splitAt?_eq_some_iff {c : Char} {t before after : Text} :
    splitAt? c t = some (before, after) ↔ t = before ++ c :: after ∧ c ∉ before := by
  constructor
  · intro h
    induction t generalizing before after with
    | nil => simp [splitAt?] at h
    | cons d r ih =>
      simp only [splitAt?] at h
      split at h
      · next hd =>
        simp only [Option.some.injEq, Prod.mk.injEq] at h
        obtain ⟨rfl, rfl⟩ := h
        simp [hd]
      · next hd =>
        obtain ⟨⟨b, a⟩, hb, he⟩ := Option.map_eq_some_iff.1 h
        simp only [Prod.mk.injEq] at he
        obtain ⟨rfl, rfl⟩ := he
        obtain ⟨hr, hc⟩ := ih hb
        exact ⟨by simp [hr], by simp [hc, Ne.symm hd]⟩
  · rintro ⟨rfl, h⟩
    exact splitAt?_append h after

/-- The text before and after the first place of the word `w`. -/
def cutAt? (w : Text) : Text → Option (Text × Text)
  | [] => if w.isEmpty then some ([], []) else none
  | c :: r =>
    if w.isPrefixOf (c :: r) then some ([], (c :: r).drop w.length)
    else (cutAt? w r).map fun p => (c :: p.1, p.2)

/-- Whether the word `w` stands somewhere in the text. -/
def hasWord (t w : Text) : Bool := (cutAt? w t).isSome

/-- Writes `v` in the first place of `w`. -/
def replaceFirst (t w v : Text) : Text :=
  match cutAt? w t with
  | some (before, after) => before ++ v ++ after
  | none => t

/-- Writes `v` in every place of a nonempty word `w`, after passing over `skip` characters. -/
def replaceFrom (w v : Text) : Nat → Text → Text
  | _, [] => []
  | skip + 1, _ :: r => replaceFrom w v skip r
  | 0, c :: r =>
    if w.isPrefixOf (c :: r) then v ++ replaceFrom w v (w.length - 1) r
    else c :: replaceFrom w v 0 r

/-- Writes `v` in every place of `w`; the empty word stands before each character and at the end. -/
def replaceAll (t w v : Text) : Text :=
  if w.isEmpty then v ++ t.flatMap (fun c => c :: v) else replaceFrom w v 0 t

/-- The parts of a cut text are put together again around the word. -/
theorem cutAt?_eq_some {w t before after : Text} (h : cutAt? w t = some (before, after)) :
    t = before ++ w ++ after := by
  induction t generalizing before after with
  | nil =>
    simp only [cutAt?, List.isEmpty_iff] at h
    split at h <;> simp_all
  | cons c r ih =>
    simp only [cutAt?] at h
    split at h
    · next hp =>
      obtain ⟨s, hs⟩ := List.isPrefixOf_iff_prefix.1 hp
      simp only [Option.some.injEq, Prod.mk.injEq] at h
      obtain ⟨rfl, rfl⟩ := h
      rw [← hs]; simp
    · obtain ⟨⟨b, a⟩, hb, he⟩ := Option.map_eq_some_iff.1 h
      simp only [Prod.mk.injEq] at he
      obtain ⟨rfl, rfl⟩ := he
      simp [ih hb]

end Lineage.Text
