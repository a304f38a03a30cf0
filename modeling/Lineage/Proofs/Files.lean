import Mathlib.Data.List.Basic
import Lineage.Files
/-!
# What was written is read

A file that was written stands where it was written, and holds what was written
(`readText_of_writeText`). Nothing on the way to it has changed (`walk_put`).
-/
namespace Lineage.Files

variable {fs fs' : Files} {p q : Path} {e : Entry} {t : Text}

/-! ## Places -/

theorem find?_put_self (h : p ≠ []) : (fs.put p e).find? p = some e := by
  simp [find?, put, h]

theorem find?_put_of_ne (h : q ≠ p) : (fs.put p e).find? q = fs.find? q := by
  unfold find? put
  rw [List.find?_cons_of_neg (by simpa using Ne.symm h), List.find?_filter]
  have hp : (fun a : Path × Entry => decide ((a.1 != p) = true ∧ (a.1 == q) = true)) =
      fun a => a.1 == q := by
    funext a
    by_cases ha : a.1 = q <;> simp [ha, h]
  rw [hp]

/-- A walk to a place does not notice what is put there, unless it was a folder. -/
theorem walk_put {folderOnly : Bool} {base : Path} {names : List Text} {place : Place}
    (h : fs.walk folderOnly base names = .ok place) (hf : fs.find? place.path ≠ some .folder) :
    (fs.put place.path e).walk folderOnly base names = .ok place := by
  fun_induction walk fs folderOnly base names with
  | case1 base => exact h
  | case2 base names ih =>
    rw [walk, if_pos rfl]
    exact ih h
  | case3 base names hn ih =>
    rw [walk, if_neg hn, if_pos rfl]
    exact ih h
  | case4 => cases h
  | case5 base n names hn hdots hlong hlast =>
    rw [walk, if_neg hn, if_neg hdots, if_neg hlong, if_pos hlast]
    exact h
  | case6 base n names hn hdots hlong hlast hfolder ih =>
    -- a folder on the way is another place
    have hne : base ++ [n] ≠ place.path := fun he => hf (he ▸ hfolder)
    rw [walk, if_neg hn, if_neg hdots, if_neg hlong, if_neg hlast, find?_put_of_ne hne, hfolder]
    exact ih h
  | case7 => cases h
  | case8 => cases h

/-- Putting a file at a place leaves the way to it. -/
theorem locate_put {place : Place} (h : fs.locate t = .ok place)
    (hf : fs.find? place.path ≠ some .folder) : (fs.put place.path e).locate t = .ok place := by
  unfold locate at h ⊢
  split at h
  · cases h
  · next hnul =>
    rw [if_neg hnul]
    split at h
    · cases h
    · next hlong =>
      rw [if_neg hlong]
      split at h
      · cases h
      · next hempty =>
        rw [if_neg hempty]
        exact walk_put h hf

/-! ## Texts -/

/-- Writing a text puts its bytes in a place where no folder stands. -/
theorem writeText_ok {overwrite : Bool} {path : Text}
    (h : fs.writeText path overwrite t = .ok fs') :
    ∃ p, fs.locate path = .ok ⟨p, false⟩ ∧ fs.find? p ≠ some .folder ∧
      fs' = fs.put p (.file (String.ofList t).toUTF8) := by
  unfold writeText write at h
  split at h
  · cases h
  · next place hplace =>
    obtain ⟨p, folderOnly⟩ := place
    cases folderOnly with
    | true => cases h
    | false =>
      refine ⟨p, hplace, ?_⟩
      simp only [Bool.false_eq_true, if_false] at h
      cases hfind : fs.find? p with
      | none =>
        rw [hfind] at h
        cases h
        exact ⟨nofun, rfl⟩
      | some entry =>
        rw [hfind] at h
        cases entry with
        | folder => cases h
        | file bytes =>
          cases overwrite with
          | false => cases h
          | true =>
            cases h
            exact ⟨nofun, rfl⟩

theorem put_put (fs : Files) (p : Path) (e e' : Entry) : (fs.put p e).put p e' = fs.put p e' := by
  simp [put, List.filter_filter]

/-- Whether a text can be written does not depend on the text. -/
theorem writeText_of_error {overwrite : Bool} {path : Text} {f : Failure}
    (h : fs.writeText path overwrite t = .error f) (t' : Text) :
    fs.writeText path overwrite t' = .error f := by
  unfold writeText write at h ⊢
  cases hlocate : fs.locate path with
  | error g => simpa only [hlocate] using h
  | ok place =>
    obtain ⟨p, folderOnly⟩ := place
    simp only [hlocate] at h ⊢
    cases folderOnly with
    | true => exact h
    | false =>
      simp only [Bool.false_eq_true, if_false] at h ⊢
      cases hfind : fs.find? p with
      | none =>
        rw [hfind] at h
        cases h
      | some entry =>
        rw [hfind] at h
        cases entry with
        | folder => exact h
        | file bytes =>
          cases overwrite with
          | true => cases h
          | false => exact h

/-- Writing again over what was just written is as if only the second text had been written. -/
theorem writeText_writeText {overwrite : Bool} {path : Text}
    (h : fs.writeText path overwrite t = .ok fs') (t' : Text) :
    fs'.writeText path true t' = fs.writeText path overwrite t' := by
  cases ht : fs.writeText path overwrite t' with
  | error f =>
    rw [writeText_of_error ht t] at h
    cases h
  | ok fs₁ =>
    obtain ⟨p, hlocate, hfolder, rfl⟩ := writeText_ok h
    obtain ⟨p', hlocate', -, rfl⟩ := writeText_ok ht
    obtain rfl : p = p' := by
      rw [hlocate] at hlocate'
      cases hlocate'
      rfl
    have hne : p ≠ [] := by
      rintro rfl
      exact hfolder rfl
    unfold writeText write
    rw [locate_put hlocate hfolder]
    simp only [Bool.false_eq_true, if_false, find?_put_self hne, if_true, put_put]

theorem fromUTF8?_toUTF8 (s : String) : String.fromUTF8? s.toUTF8 = some s :=
  dif_pos s.isValidUTF8

/-- After a text was written, a file stands at the path, and the text is read from it. -/
theorem readText_of_writeText {overwrite : Bool} {path : Text}
    (h : fs.writeText path overwrite t = .ok fs') :
    fs'.isFile path = true ∧ fs'.readText path = .ok t := by
  obtain ⟨p, hlocate, hfolder, rfl⟩ := writeText_ok h
  have hne : p ≠ [] := by
    rintro rfl
    exact hfolder rfl
  have hlocate' : (fs.put p (.file (String.ofList t).toUTF8)).locate path = .ok ⟨p, false⟩ :=
    locate_put hlocate hfolder
  constructor
  · unfold isFile
    simp only [hlocate', find?_put_self hne]
  · unfold readText read
    simp only [hlocate', find?_put_self hne, Bool.false_eq_true, if_false, fromUTF8?_toUTF8,
      String.toList_ofList]

end Lineage.Files
