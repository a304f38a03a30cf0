import Lineage.Proofs.Construction.Overrides
import Lineage.Proofs.Reference.OwnName
/-!
# Rebinding

A line that names its owner stands for another value in each heir. The heir does not read the line
again: it takes its parent's value and writes its own name in place of the parent's
(`exists_along`). `rebound_of_chain` says what comes of that down a chain of heirs, and when it is
what the line itself would stand for.
-/
namespace Lineage

open Source Section Reference

/-- The value with each name replaced by the next, one after another. -/
def Value.renamedAlong : Text → List Text → Value → Value
  | _, [], v => v
  | x, y :: ys, v => renamedAlong y ys (v.renamed x y)

namespace Construction

/-- The line is the last of its block with its key, has no tokens but `$this`, and is not forced to
be evaluated. -/
structure ThisLine (b : Block) (line : Declaration) : Prop where
  last : ∃ before after, b.declarations = before ++ line :: after ∧
    line.key ∉ after.map Declaration.key
  onlyThis : OnlyThis line.value
  unforced : forcesEvaluation line.value (noteOf line) = false

/-- The value of the line is rebound in heirs: it names its owner, or the comment says so. -/
def Rebinds (line : Declaration) : Prop :=
  tokens line.value ≠ [] ∨ (noteOf line).derivation = some .selfReference

/-- The section named `y` does not declare the key, and the last of its parents that hold it is
named `x`. -/
def Takes (blocks : List Block) (L : Lookup) (key x y : Text) : Prop :=
  ∃ b ∈ blocks, b.name = y ∧ key ∉ b.declarations.map Declaration.key ∧
    ∃ P q, lastHolder? L b.parents key = some (P, q) ∧ P.name = x

/-- What a line of the section `owner` stands for in the last of a chain of heirs. -/
structure Rebound (owner : Text) (heirs : List Text) (line : Declaration) (v : Value) : Prop where
  kept : '(' ∉ withName owner line.value → ¬ Rebinds line → v = .infer line.value
  renamed : '(' ∉ withName owner line.value → Rebinds line →
    v = (Value.infer (withName owner line.value)).renamedAlong owner heirs
  /-- A bracket in the owner's name makes the line an expression. -/
  evaluated : '(' ∈ withName owner line.value → ∃ t,
    Expression.evaluate (withName (heirs.getLastD owner) line.value) = .ok t ∧ v = .infer t
  /-- As if the last heir declared the line itself. -/
  redeclared : '(' ∉ withName owner line.value →
    (Rebinds line → (∃ t, Value.infer (withName owner line.value) = .text t) ∧
      (∃ t, Value.infer (withName (heirs.getLastD owner) line.value) = .text t) ∧
      ∀ x ∈ (owner :: heirs).dropLast, NamedOnly x line.value) →
    v = .infer (withName (heirs.getLastD owner) line.value)

variable {L : Lookup} {b : Block} {s : Section} {line : Declaration} {blocks : List Block}
  {ss : List Section} {key x y : Text} {ys : List Text} {P : Section} {q : Property}

/-! ## The owner -/

/-- The derivation that is noted for a line which is not evaluated. -/
theorem derivation_of_unforced (h : forcesEvaluation line.value (noteOf line) = false)
    {d : Option Derivation} (hd : d = if tokens line.value = [] then (noteOf line).derivation
      else some .selfReference) :
    (Rebinds line → d = some .selfReference) ∧ (¬ Rebinds line → d = none) := by
  unfold Rebinds
  by_cases ht : tokens line.value = []
  · rw [if_pos ht] at hd
    cases hn : (noteOf line).derivation with
    | none => simp [hd, hn, ht]
    | some e =>
      cases e with
      | selfReference => simp [hd, hn]
      | expression raw =>
        -- the expression of a comment would force the evaluation
        simp [forcesEvaluation, Note.isExpression, hn, Derivation.isExpression] at h
  · simp [hd, ht]

/-- What the owner itself holds under the key of its line. -/
theorem get?_of_thisLine (h : ofBlock b L true = .ok s) (hl : ThisLine b line) :
    ∃ q, s.get? line.key = some q ∧ if '(' ∈ withName b.name line.value then
        q.derivation = some (.expression line.value) ∧ ∃ t,
          Expression.evaluate (withName b.name line.value) = .ok t ∧ q.value = .infer t
      else q.value = .infer (withName b.name line.value) ∧
        (Rebinds line → q.derivation = some .selfReference) ∧
        (¬ Rebinds line → q.derivation = none) := by
  obtain ⟨before, after, hsplit, hlast⟩ := hl.last
  obtain ⟨m, q, hm, hq, hget⟩ := get?_of_last h hsplit hlast
  have hname : m.name = b.name := (name_of_ofBlock hm :)
  obtain ⟨d, hd, hself⟩ := resolve_onlyThis (s := m) (L := L) hl.onlyThis (noteOf line)
  obtain ⟨hrebinds, hkept⟩ := derivation_of_unforced hl.unforced (hself hl.unforced)
  have hplain : d.any Derivation.isExpression = false := by
    by_cases hr : Rebinds line
    · rw [hrebinds hr]
      rfl
    · rw [hkept hr]
      rfl
  have heval : isEvaluated line ⟨withName b.name line.value, d⟩ =
      decide ('(' ∈ withName b.name line.value) := by
    simp only [isEvaluated, hplain, hl.unforced, Bool.false_or, Bool.or_false, List.contains_eq_mem]
  obtain ⟨r, hr, hprop⟩ := property_ok_iff.1 hq
  rw [hd, hname] at hr
  cases hr
  simp only [heval, decide_eq_true_eq] at hprop
  refine ⟨_, hget, ?_⟩
  split at hprop
  · next hmem =>
    rw [if_pos hmem]
    obtain ⟨t, ht, rfl⟩ := hprop
    refine ⟨?_, t, ht, rfl⟩
    simp [Property.derivation, Property.attach, Property.new, derivationOf, hplain]
  · next hmem =>
    rw [if_neg hmem]
    subst hprop
    exact ⟨rfl, hrebinds, hkept⟩

/-! ## Its heirs -/

theorem get?_of_takes (hfin : Finished true blocks ss) (h : Takes blocks (find ss) key x y) :
    ∃ P q Q c, find ss x = some P ∧ P.get? key = some q ∧ find ss y = some Q ∧
      Q.get? key = some c ∧ q.Copied (find ss) x y c := by
  obtain ⟨b, hb, rfl, hk, P, q, hlast, rfl⟩ := h
  obtain ⟨Q, -, hQ, hof⟩ := exists_right_of_forall₂ hfin hb
  obtain ⟨⟨p, -, hP⟩, hq⟩ := lastHolder?_eq_some hlast
  obtain ⟨c, hc, hcopy⟩ := (get?_of_not_declared hof (fun p P hP => nodup_keys_of_finished hfin hP)
    hk).2 P q hlast
  have hname : P.name = p := by simpa using List.find?_some hP
  exact ⟨P, q, Q, c, hname ▸ hP, hq, hQ, hc, name_of_ofBlock hof ▸ hcopy⟩

/-- What a chain of heirs makes of a property. -/
theorem exists_along (hfin : Finished true blocks ss)
    (hchain : List.IsChain (Takes blocks (find ss) key) (x :: ys)) (hP : find ss x = some P)
    (hq : P.get? key = some q) : ∃ Q c, find ss (ys.getLastD x) = some Q ∧ Q.get? key = some c ∧
      c.note = q.note ∧ match q.derivation with
        | none => c.value = q.value
        | some .selfReference => c.value = q.value.renamedAlong x ys
        | some (.expression raw) => (ys = [] ∧ c.value = q.value) ∨ ∃ m : Section,
          m.name = ys.getLastD x ∧ m.valueOfExpression raw q.note (find ss) = .ok c.value := by
  induction ys generalizing x P q with
  | nil =>
    refine ⟨P, q, hP, hq, rfl, ?_⟩
    split
    · rfl
    · rfl
    · exact .inl ⟨rfl, rfl⟩
  | cons y ys ih =>
    rw [List.isChain_cons_cons] at hchain
    obtain ⟨P', q', Q, c, hP', hq', hQ, hc, hcopy⟩ := get?_of_takes hfin hchain.1
    obtain rfl := Option.some.inj (hP.symm.trans hP')
    obtain rfl := Option.some.inj (hq.symm.trans hq')
    obtain ⟨R, e, hR, he, hnote, hvalue⟩ := ih hchain.2 hQ hc
    have hcq := hcopy.note
    have hd : c.derivation = q.derivation := congrArg Note.derivation hcq
    have hpass := hcopy.value
    refine ⟨R, e, by rwa [List.getLastD_cons], he, hnote.trans hcq, ?_⟩
    rw [hd] at hvalue
    rw [Property.Passes] at hpass
    cases hdq : q.derivation with
    | none =>
      rw [hdq] at hvalue hpass
      exact hvalue.trans hpass
    | some d =>
      rw [hdq] at hvalue hpass
      cases d with
      | selfReference => exact hvalue.trans (congrArg (Value.renamedAlong y ys) hpass)
      | expression raw =>
        refine .inr ?_
        rcases hvalue with ⟨rfl, hv⟩ | ⟨m, hm, hv⟩
        · rw [hv]
          exact hpass
        · exact ⟨m, by rwa [List.getLastD_cons], hcq ▸ hv⟩

/-! ## Along a chain -/

/-- A value that embeds its owner is renamed step by step to what embeds the last heir. -/
theorem renamedAlong_withName {raw : Text} (hne : ∀ z ∈ x :: ys, z ≠ [])
    (h : ∀ z ∈ (x :: ys).dropLast, NamedOnly z raw) :
    (Value.text (withName x raw)).renamedAlong x ys = .text (withName (ys.getLastD x) raw) := by
  induction ys generalizing x with
  | nil => rfl
  | cons y ys ih =>
    have hx : (Value.text (withName x raw)).renamed x y = .text (withName y raw) :=
      congrArg Value.text (replaceAll_withName (hne x (by simp)) (h x (by simp)))
    rw [Value.renamedAlong, hx, List.getLastD_cons]
    refine ih (fun z hz => hne z (by simp [hz])) fun z hz => h z ?_
    rw [List.dropLast_cons_of_ne_nil (List.cons_ne_nil y ys)]
    exact List.mem_cons_of_mem x hz

theorem infer_eq_text {t u : Text} (h : Value.infer t = .text u) : u = t.trim := by
  unfold Value.infer at h
  split at h
  · cases h
  · split at h
    · cases h
    · split at h
      · cases h
      · cases h
        rfl

theorem valueOfExpression_onlyThis {m : Section} {raw : Text} {a : Note} {v : Value}
    (hr : OnlyThis raw) (h : m.valueOfExpression raw a L = .ok v) :
    ∃ t, Expression.evaluate (withName m.name raw) = .ok t ∧ v = .infer t := by
  obtain ⟨d, hd, -⟩ := resolve_onlyThis (s := m) (L := L) hr a
  obtain ⟨r, t, hres, ht, rfl⟩ := valueOfExpression_ok_iff.1 h
  obtain rfl := Except.ok.inj (hd.symm.trans hres)
  exact ⟨t, ht, rfl⟩

theorem exists_block_of_chain (hb : ∃ b ∈ blocks, b.name = x)
    (hchain : List.IsChain (Takes blocks L key) (x :: ys)) :
    ∀ z ∈ x :: ys, ∃ b ∈ blocks, b.name = z := by
  induction ys generalizing x with
  | nil => simpa using hb
  | cons y ys ih =>
    rw [List.isChain_cons_cons] at hchain
    obtain ⟨b', hb', hy, -⟩ := hchain.1
    rw [List.forall_mem_cons]
    exact ⟨hb, ih ⟨b', hb', hy⟩ hchain.2⟩

/-- In the last of a chain of heirs, a line is rebound. -/
theorem rebound_of_chain (hfin : Finished true blocks ss) (hread : ∀ b ∈ blocks, b.Readable)
    (hb : b ∈ blocks) (hl : ThisLine b line)
    (hchain : List.IsChain (Takes blocks (find ss) line.key) (b.name :: ys)) :
    ∃ Q c, find ss (ys.getLastD b.name) = some Q ∧ Q.get? line.key = some c ∧
      Rebound b.name ys line c.value := by
  obtain ⟨P, -, hP, hof⟩ := exists_right_of_forall₂ hfin hb
  obtain ⟨q, hq, hown⟩ := get?_of_thisLine hof hl
  obtain ⟨Q, c, hQ, hc, -, hvalue⟩ := exists_along hfin hchain hP hq
  refine ⟨Q, c, hQ, hc, ?_⟩
  split at hown
  · next hmem =>
    obtain ⟨hd, t, ht, hv⟩ := hown
    rw [hd] at hvalue
    refine ⟨fun h => absurd hmem h, fun h => absurd hmem h, fun _ => ?_, fun h => absurd hmem h⟩
    rcases hvalue with ⟨rfl, hc⟩ | ⟨m, hm, hc⟩
    · exact ⟨t, ht, hc.trans hv⟩
    · rw [← hm]
      exact valueOfExpression_onlyThis hl.onlyThis hc
  · next hmem =>
    obtain ⟨hv, hself, hnone⟩ := hown
    have htokens (h : ¬ Rebinds line) : tokens line.value = [] := by
      by_contra ht
      exact h (.inl ht)
    have hkept : ¬ Rebinds line → c.value = .infer line.value := by
      intro h
      rw [hnone h] at hvalue
      rw [hvalue, hv, withName_of_tokens_nil _ (htokens h)]
    have hrenamed : Rebinds line →
        c.value = (Value.infer (withName b.name line.value)).renamedAlong b.name ys := by
      intro h
      rw [hself h] at hvalue
      rw [hvalue, hv]
    refine ⟨fun _ => hkept, fun _ => hrenamed, fun h => absurd h hmem, fun _ hcond => ?_⟩
    by_cases h : Rebinds line
    · obtain ⟨⟨t, ht⟩, ⟨u, hu⟩, honly⟩ := hcond h
      have hnames := exists_block_of_chain ⟨b, hb, rfl⟩ hchain
      have hlast : ys.getLastD b.name ∈ b.name :: ys := List.getLastD_mem_cons
      have htrim : ∀ z ∈ b.name :: ys, z ≠ [] ∧
          (withName z line.value).trim = withName z line.value := by
        intro z hz
        obtain ⟨b', hb', rfl⟩ := hnames z hz
        obtain ⟨before, after, hsplit, -⟩ := hl.last
        have hline := (hread b hb).declarations line (by simp [hsplit])
        exact ⟨(hread b' hb').name_ne, trim_withName hline.value_trim (hread b' hb').name_ne
          (hread b' hb').name_trim⟩
      rw [hrenamed h, ht, infer_eq_text ht, (htrim _ (by simp)).2,
        renamedAlong_withName (fun z hz => (htrim z hz).1) honly, hu, infer_eq_text hu,
        (htrim _ hlast).2]
    · rw [hkept h, withName_of_tokens_nil _ (htokens h)]

end Construction

end Lineage
