import Lineage.Proofs.Construction.Run
import Lineage.Proofs.Construction.Reloaded
import Lineage.Proofs.Section.Merging
/-!
# Overriding

Under each key of a block's section stands what the last line with the key declares, or else a copy
from the last of the parents that hold the key (`overrides_of_ofBlock`).
-/
namespace Lineage.Construction

open Source Section

variable {L : Lookup} {s s' m : Section} {ps : List Text} {ds : List Declaration} {line : Nat}
  {key : Text}

/-! ## The last of the parents -/

/-- The last of some sections that holds the key, and its property. -/
def lastHolder? (L : Lookup) (ps : List Text) (key : Text) : Option (Section × Property) :=
  ps.reverse.findSome? fun p => (L p).bind fun P => (P.get? key).map fun q => (P, q)

theorem lastHolder?_cons (L : Lookup) (p : Text) (ps : List Text) (key : Text) :
    lastHolder? L (p :: ps) key = (lastHolder? L ps key).or
      ((L p).bind fun P => (P.get? key).map fun q => (P, q)) := by
  rw [lastHolder?, List.reverse_cons, List.findSome?_append, List.findSome?_singleton]
  rfl

theorem lastHolder?_eq_some {P : Section} {q : Property}
    (h : lastHolder? L ps key = some (P, q)) : (∃ p ∈ ps, L p = some P) ∧ P.get? key = some q := by
  obtain ⟨p, hp, he⟩ := List.exists_of_findSome?_eq_some h
  rw [List.mem_reverse] at hp
  simp only [Option.bind_eq_some_iff, Option.map_eq_some_iff, Prod.mk.injEq] at he
  obtain ⟨P', hP, q', hq, rfl, rfl⟩ := he
  exact ⟨⟨p, hp, hP⟩, hq⟩

theorem lastHolder?_isSome_iff :
    (lastHolder? L ps key).isSome ↔ ∃ p ∈ ps, ∃ P, L p = some P ∧ key ∈ P.keys := by
  rw [lastHolder?, List.findSome?_isSome_iff]
  simp only [List.mem_reverse]
  refine exists_congr fun p => and_congr_right fun _ => ?_
  cases L p with
  | none => simp
  | some P =>
    rw [Option.bind_some, Option.isSome_map, ← not_iff_not, Option.not_isSome_iff_eq_none,
      get?_eq_none_iff]
    simp

theorem keys_nodup_inheritWith {parent : Section}
    (h : (s.inheritWith parent true L).toExcept = .ok s') : s'.keys.Nodup := by
  rw [keys_of_inheritWith h]
  exact nodup_keepLast _

/-- What merging parents leaves under a key. -/
theorem get?_mergeParents (h : mergeParents line L s ps = .ok m) (hs : s.keys.Nodup)
    (hL : ∀ p ∈ ps, ∀ P, L p = some P → P.keys.Nodup) (key : Text) :
    (lastHolder? L ps key = none → m.get? key = s.get? key) ∧
      ∀ P q, lastHolder? L ps key = some (P, q) →
        ∃ c, m.get? key = some c ∧ q.Copied L P.name s.name c := by
  induction ps generalizing s with
  | nil =>
    cases h
    refine ⟨fun _ => rfl, fun P q h => ?_⟩
    simp [lastHolder?] at h
  | cons p ps ih =>
    obtain ⟨P₀, s₁, hP₀, hs₁, h⟩ := mergeParents_cons_ok h
    obtain ⟨hnone, hsome⟩ := ih h (keys_nodup_inheritWith hs₁) fun q hq => hL q (by simp [hq])
    obtain ⟨hkept, hcopied⟩ := get?_inheritWith hs₁ hs (hL p (by simp) P₀ hP₀) key
    have hname := name_of_inheritWith hs₁
    rw [lastHolder?_cons, hP₀, Option.bind_some]
    cases hlast : lastHolder? L ps key with
    | some last =>
      rw [Option.some_or]
      refine ⟨nofun, fun P q h => ?_⟩
      cases h
      rw [← hname]
      exact hsome P q hlast
    | none =>
      rw [Option.none_or, hnone hlast]
      refine ⟨fun h => hkept (by simpa using h), fun P q h => ?_⟩
      obtain ⟨q', hq, he⟩ := Option.map_eq_some_iff.1 h
      cases he
      exact hcopied q hq

/-! ## The last of the lines -/

theorem declareLines_append_ok {overwrite : Bool} {ds' : List Declaration}
    (h : declareLines overwrite L m (ds ++ ds') = .ok s) :
    ∃ m', declareLines overwrite L m ds = .ok m' ∧ declareLines overwrite L m' ds' = .ok s := by
  induction ds generalizing m with
  | nil => exact ⟨m, rfl, h⟩
  | cons d ds ih =>
    obtain ⟨q, m₁, hq, hm₁, h⟩ := declareLines_cons_ok h
    obtain ⟨m', h1, h2⟩ := ih h
    exact ⟨m', by simpa only [declareLines, hq, hm₁] using h1, h2⟩

theorem nodup_of_declareLines (h : declareLines true L m ds = .ok s) (hn : m.keys.Nodup) :
    s.keys.Nodup := by
  obtain ⟨qs, rfl, hq, -⟩ := declareLines_ok h hn
  exact nodup_overlay hn hq

/-- Lines leave alone what has another key. -/
theorem get?_declareLines_of_not_mem (h : declareLines true L m ds = .ok s) (hn : m.keys.Nodup)
    (hk : key ∉ ds.map Declaration.key) : s.get? key = m.get? key := by
  obtain ⟨qs, rfl, -, hall⟩ := declareLines_ok h hn
  have hnone : qs.find? (·.key == key) = none := by
    rw [find?_eq_none_iff]
    intro hm
    obtain ⟨q, hq, rfl⟩ := List.mem_map.1 hm
    obtain ⟨d, hd, m', q', -, hq', rfl⟩ := hall q hq
    exact hk (List.mem_map.2 ⟨d, hd, (Property.key_of_property hq').symm⟩)
  rw [get?, find?_overlay, hnone]
  rfl

/-- The last line with its key declares the property under that key. -/
theorem get?_declareLines (d : Declaration) {before after : List Declaration}
    (h : declareLines true L m (before ++ d :: after) = .ok s) (hn : m.keys.Nodup)
    (hk : d.key ∉ after.map Declaration.key) :
    ∃ m' q, declareLines true L m before = .ok m' ∧ property d m' L = .ok q ∧
      s.get? d.key = some (q.attach m.name) := by
  obtain ⟨m', hm', h⟩ := declareLines_append_ok h
  obtain ⟨q, m₁, hq, hm₁, h⟩ := declareLines_cons_ok h
  have hn' := nodup_of_declareLines hm' hn
  have hkey := Property.key_of_property hq
  refine ⟨m', q, hm', hq, ?_⟩
  rw [insert_eq hn'] at hm₁
  cases hm₁
  rw [get?_declareLines_of_not_mem h (nodup_overlay hn' (List.nodup_singleton _)) hk, get?,
    find?_overlay, name_of_declareLines hm']
  have : (q.attach m.name).key = d.key := hkey
  simp [this]

/-- What a line declares is local, unchanged and no copy. -/
theorem property_eq_new {d : Declaration} {q : Property} (h : property d m L = .ok q) :
    q = .new d.key q.value q.note := by
  obtain ⟨r, -, hq⟩ := property_ok_iff.1 h
  split at hq
  · obtain ⟨t, -, rfl⟩ := hq
    rfl
  · subst hq
    rfl

/-! ## The section of a block -/

/-- What a section holds, told from its block and the sections that `L` finds. -/
structure Overrides (L : Lookup) (b : Block) (s : Section) : Prop where
  name : s.name = b.name
  parents : s.parents = b.parents
  nodup : s.keys.Nodup
  keys : ∀ key, key ∈ s.keys ↔ key ∈ b.declarations.map Declaration.key ∨
    ∃ p ∈ b.parents, ∃ P, L p = some P ∧ key ∈ P.keys
  /-- The last line with its key declares a property in what was built above it. -/
  declared : ∀ key ∈ b.declarations.map Declaration.key, ∃ before d after m q,
    b.declarations = before ++ d :: after ∧ d.key = key ∧ key ∉ after.map Declaration.key ∧
      ofBlock { b with declarations := before } L true = .ok m ∧ property d m L = .ok q ∧
      s.get? key = some (q.attach s.name) ∧
      q.inherited = false ∧ q.modified = false ∧ q.cloned = false
  /-- A key of no line holds a copy from the last parent that has it. -/
  inherited : ∀ key ∈ s.keys, key ∉ b.declarations.map Declaration.key → ∃ P q c,
    lastHolder? L b.parents key = some (P, q) ∧ s.get? key = some c ∧
      c.inherited = true ∧ c.cloned = true ∧ c.modified = false ∧ c.owner = some s.name ∧
      c.note = q.note ∧ (q.derivation = none → c.value = q.value)
  /-- The differences are the declared keys, under the block's own header. -/
  written : ∃ ps : List Property, s.render .diff = '[' :: b.name ++ ']' ::
      (if b.parents = [] then [] else ' ' :: ':' :: ' ' :: [',', ' '].intercalate b.parents) ++
        '\n' :: ps.flatMap (fun p => p.render ++ ['\n']) ∧
    (ps.map Property.key).Nodup ∧ (∀ p ∈ ps, s.get? p.key = some p) ∧
    ∀ key, key ∈ ps.map Property.key ↔ key ∈ b.declarations.map Declaration.key

variable {b : Block}

/-- The last line with its key declares a property in what was built above it. -/
theorem get?_of_last (h : ofBlock b L true = .ok s) {before after : List Declaration}
    {d : Declaration} (hsplit : b.declarations = before ++ d :: after)
    (hlast : d.key ∉ after.map Declaration.key) :
    ∃ m q, ofBlock { b with declarations := before } L true = .ok m ∧ property d m L = .ok q ∧
      s.get? d.key = some (q.attach s.name) := by
  obtain ⟨m, hm, hs⟩ := ofBlock_ok h
  have hn := nodup_of_mergeParents hm List.nodup_nil
  rw [hsplit] at hs
  obtain ⟨m', q, hm', hq, hget⟩ := get?_declareLines d hs hn hlast
  refine ⟨m', q, ?_, hq, ?_⟩
  · simpa only [ofBlock, hm] using hm'
  · rw [hget, name_of_ofBlock h, name_of_mergeParents hm]
    rfl

theorem get?_of_declared (h : ofBlock b L true = .ok s)
    (hk : key ∈ b.declarations.map Declaration.key) : ∃ before d after m q,
      b.declarations = before ++ d :: after ∧ d.key = key ∧ key ∉ after.map Declaration.key ∧
        ofBlock { b with declarations := before } L true = .ok m ∧ property d m L = .ok q ∧
        s.get? key = some (q.attach s.name) := by
  obtain ⟨before, d, after, hsplit, rfl, hlast⟩ := exists_last hk
  obtain ⟨m, q, hm, hq, hget⟩ := get?_of_last h hsplit hlast
  exact ⟨before, d, after, m, q, hsplit, rfl, hlast, hm, hq, hget⟩

/-- Under a key of no line stands what was merged. -/
theorem get?_of_not_declared (h : ofBlock b L true = .ok s)
    (hL : ∀ p P, L p = some P → P.keys.Nodup) (hk : key ∉ b.declarations.map Declaration.key) :
    (lastHolder? L b.parents key = none → s.get? key = none) ∧
      ∀ P q, lastHolder? L b.parents key = some (P, q) →
        ∃ c, s.get? key = some c ∧ q.Copied L P.name s.name c := by
  obtain ⟨m, hm, hs⟩ := ofBlock_ok h
  have hn := nodup_of_mergeParents hm List.nodup_nil
  rw [get?_declareLines_of_not_mem hs hn hk, name_of_ofBlock h]
  exact get?_mergeParents hm List.nodup_nil (fun p _ => hL p) key

/-- What a block yields under a key: what its last line with the key declares, or else a copy of
what the last of its parents with the key holds. -/
theorem overrides_of_ofBlock (h : ofBlock b L true = .ok s)
    (hL : ∀ p P, L p = some P → P.name = p ∧ P.keys.Nodup) : Overrides L b s := by
  obtain ⟨m, ps, hshape⟩ := ofBlock_shape h fun x o ho => (hL x o ho).1
  have hL' : ∀ p P, L p = some P → P.keys.Nodup := fun p P hP => (hL p P hP).2
  have hkeys (key : Text) : key ∈ s.keys ↔ key ∈ b.declarations.map Declaration.key ∨
      ∃ p ∈ b.parents, ∃ P, L p = some P ∧ key ∈ P.keys := by
    by_cases hk : key ∈ b.declarations.map Declaration.key
    · obtain ⟨_, _, _, _, _, _, _, _, _, _, hget⟩ := get?_of_declared h hk
      simp [mem_keys_iff_isSome, hget, hk]
    · obtain ⟨hnone, hsome⟩ := get?_of_not_declared h hL' hk
      rw [mem_keys_iff_isSome, ← lastHolder?_isSome_iff]
      cases hlast : lastHolder? L b.parents key with
      | none => simp [hnone hlast, hk]
      | some last =>
        obtain ⟨c, hc, -⟩ := hsome last.1 last.2 hlast
        simp [hc]
  have hperm := hshape.written_perm
  refine ⟨hshape.name, hshape.parents, hshape.nodup_keys, hkeys, fun key hk => ?_,
    fun key hs hk => ?_, s.written .diff, ?_, ?_, fun p hp => ?_, fun key => ?_⟩
  · obtain ⟨before, d, after, m, q, hsplit, hkey, hlast, hm, hq, hget⟩ := get?_of_declared h hk
    refine ⟨before, d, after, m, q, hsplit, hkey, hlast, hm, hq, hget, ?_⟩
    rw [property_eq_new hq]
    exact ⟨rfl, rfl, rfl⟩
  · obtain ⟨hnone, hsome⟩ := get?_of_not_declared h hL' hk
    cases hlast : lastHolder? L b.parents key with
    | none => simp [mem_keys_iff_isSome, hnone hlast] at hs
    | some last =>
      obtain ⟨c, hc, hcopy⟩ := hsome last.1 last.2 hlast
      have hv := hcopy.value
      refine ⟨last.1, last.2, c, rfl, hc, congrArg Property.inherited hcopy.unvalued,
        congrArg Property.cloned hcopy.unvalued, congrArg Property.modified hcopy.unvalued,
        congrArg Property.owner hcopy.unvalued, hcopy.note, fun hd => ?_⟩
      rwa [Property.Passes, hd] at hv
  · rw [render, header, hshape.name, hshape.parents]
    by_cases hp : b.parents = [] <;> simp [hp]
  · exact (hperm.map Property.key).nodup_iff.2 hshape.nodup
  · exact (get?_eq_some_iff hshape.nodup_keys).2 ⟨(mem_written_diff.1 hp).1, rfl⟩
  · constructor
    · intro hk
      obtain ⟨p, hp, rfl⟩ := List.mem_map.1 hk
      obtain ⟨d, hd, m', q, -, hq, rfl⟩ := hshape.declared p (hperm.mem_iff.1 hp)
      exact List.mem_map.2 ⟨d, hd, (Property.key_of_property hq).symm⟩
    · intro hk
      obtain ⟨_, d, _, _, q, _, hkey, _, _, hq, hget⟩ := get?_of_declared h hk
      obtain ⟨hmem, hpk⟩ := (get?_eq_some_iff hshape.nodup_keys).1 hget
      refine List.mem_map.2 ⟨_, mem_written_diff.2 ⟨hmem, ?_⟩, hpk⟩
      rw [property_eq_new hq]
      rfl

/-! ## All sections -/

variable {blocks : List Block} {ss : List Section} {overwrite : Bool}

theorem insert_overwrite {p : Property} (h : s.insert p overwrite = .ok s') :
    s.insert p true = .ok s' := by
  rw [insert_ok h, Section.insert, Bool.not_true, Bool.and_false, if_neg Bool.false_ne_true]

theorem declareLines_overwrite (h : declareLines overwrite L m ds = .ok s) :
    declareLines true L m ds = .ok s := by
  induction ds generalizing m with
  | nil => exact h
  | cons d ds ih =>
    obtain ⟨p, m', hp, hm', h⟩ := declareLines_cons_ok h
    simp only [declareLines, hp, insert_overwrite hm', ih h]

/-- What may not be overridden is built alike where it may. -/
theorem finished_true (h : Finished overwrite blocks ss) : Finished true blocks ss := by
  refine h.imp fun b s hs => ⟨hs.1, ?_⟩
  obtain ⟨m, hm, hl⟩ := ofBlock_ok hs.2
  simp only [ofBlock, hm, declareLines_overwrite hl]

theorem nodup_keys_of_finished (h : Finished true blocks ss) {x : Text} (hs : find ss x = some s) :
    s.keys.Nodup := by
  obtain ⟨b, -, -, hb⟩ := exists_right_of_forall₂ h.flip (List.mem_of_find?_eq_some hs)
  obtain ⟨m, ps, hshape⟩ := ofBlock_shape hb fun x o ho => by simpa using List.find?_some ho
  exact hshape.nodup_keys

theorem overrides_of_finished (h : Finished true blocks ss) :
    List.Forall₂ (Overrides (find ss)) blocks ss := by
  refine h.imp fun b s hs => overrides_of_ofBlock hs.2 fun p P hP => ?_
  exact ⟨by simpa using List.find?_some hP, nodup_keys_of_finished h hP⟩

end Lineage.Construction
