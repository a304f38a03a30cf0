import Lineage.Proofs.Construction.Rebound
import Lineage.Proofs.Document.Diff
/-!
# What heirs hold

Where declarations may replace, each section of a text holds its block's lines over what its
parents hold (`parse_overrides`). What the lines that name their owner stand for in heirs
(`parse_rebinds`), and heirs in which they do not stand for what they say there (`misbound_names`).
-/
namespace Lineage.Document

open Source Construction Reference

variable {t : Text} {o : Options} {d : Document}

/-! ## Overriding -/

/-- Each section holds the declared keys and those of its parents, each once. Under a declared key
it holds what the last line with that key declares, under any other key a copy from the last of its
parents that hold it. Its differences are the declared keys. -/
theorem parse_overrides (h : parse t o = .ok d) (ho : o.overwrite = true) :
    ∃ blocks, Block.ofText t o.limits = .ok blocks ∧
      List.Forall₂ (Overrides d.lookup) blocks d.sections := by
  obtain ⟨blocks, hblocks, hbuilt⟩ := sections_ok (sections_of_parse h)
  rw [ho] at hbuilt
  exact ⟨blocks, hblocks, overrides_of_finished (finished_of_sectionsOf hbuilt)⟩

/-- An heir of one section by two ways, with lines of the same key. -/
def twiceHeir : Text :=
  "[A]\nx = 1\nx = $this\n[B] : A\ny = 2\n[C] : A, B, A\nz = 3\nz = 4\n".toList

theorem parse_overrides_twiceHeir : ∃ d, parse twiceHeir .standard = .ok d ∧
    Options.standard.overwrite = true ∧
      ∃ blocks, Block.ofText twiceHeir Limits.standard = .ok blocks ∧
        List.Forall₂ (Overrides d.lookup) blocks d.sections := by
  obtain ⟨d, hd⟩ := exists_of_isOk (x := parse twiceHeir .standard) (by decide +kernel)
  exact ⟨d, hd, rfl, parse_overrides hd rfl⟩

/-! ## Rebinding -/

/-- Down each chain of heirs that take a key from the section of a line, the line is rebound. -/
theorem parse_rebinds (h : parse t o = .ok d) :
    ∃ blocks, Block.ofText t o.limits = .ok blocks ∧ ∀ b ∈ blocks, ∀ line, ThisLine b line →
      ∀ heirs, List.IsChain (Takes blocks d.lookup line.key) (b.name :: heirs) →
        ∃ c, d.get? (heirs.getLastD b.name) line.key = some c ∧
          Rebound b.name heirs line c.value := by
  obtain ⟨blocks, hblocks, hbuilt⟩ := sections_ok (sections_of_parse h)
  have hfin := finished_true (finished_of_sectionsOf hbuilt)
  refine ⟨blocks, hblocks, fun b hb line hl heirs hchain => ?_⟩
  obtain ⟨Q, c, hQ, hc, hre⟩ := rebound_of_chain hfin (readable_of_ofText hblocks) hb hl hchain
  have hsection : d.section? (heirs.getLastD b.name) = some Q := hQ
  exact ⟨c, by rw [get?, hsection, Option.bind_some, hc], hre⟩

/-! ## A chain of heirs -/

variable {blocks : List Block} {b : Block} {line : Declaration}

/-- The section named `x` is the last parent of an heir that holds the key of a line. -/
def comesFrom (d : Document) (line : Declaration) (x : Text) (heir : Block) : Bool :=
  (lastHolder? d.lookup heir.parents line.key).any (·.1.name == x)

theorem takes_of_comesFrom {x : Text} (heir : Block) (hheir : heir ∈ blocks)
    (hk : line.key ∉ heir.declarations.map Declaration.key)
    (h : d.comesFrom line x heir = true) : Takes blocks d.lookup line.key x heir.name := by
  obtain ⟨⟨P, q⟩, hlast, hname⟩ := (Option.any_eq_true _ _).1 h
  exact ⟨heir, hheir, rfl, hk, P, q, hlast, by simpa using hname⟩

/-- A block with one line, `k` with the value. -/
def single (name : Text) (line : Nat) (value : Text) : Block :=
  ⟨name, [], line, [⟨['k'], value, none, line + 1⟩]⟩

theorem thisLine_single {name value : Text} {line : Nat} (ht : ∀ x ∈ tokens value, x = thisName)
    (hp : '(' ∉ value) : ThisLine (single name line value) ⟨['k'], value, none, line + 1⟩ := by
  refine ⟨⟨[], [], rfl, List.not_mem_nil⟩, ht, ?_⟩
  simp [forcesEvaluation, hp, noteOf, Note.blank, Note.isExpression]

/-- A line that names its owner, an heir and its heir. -/
def chainText : Text := "[A]\nk = $this unit\n[B] : A\n[C] : B\n".toList

/-- The line of `chainText`. -/
def chainLine : Declaration := ⟨['k'], "$this unit".toList, none, 2⟩

/-- The blocks of `chainText`. -/
def chainBlocks : List Block :=
  [single ['A'] 1 "$this unit".toList, ⟨['B'], [['A']], 3, []⟩, ⟨['C'], [['B']], 4, []⟩]

theorem ofText_chainText : Block.ofText chainText Limits.standard = .ok chainBlocks := by
  rfl

/-- The last heir holds what it would hold if it declared the line. -/
theorem parse_rebinds_chain : ∃ d, parse chainText .standard = .ok d ∧
    List.IsChain (Takes chainBlocks d.lookup ['k']) [['A'], ['B'], ['C']] ∧
    ∃ c, d.get? ['C'] ['k'] = some c ∧ c.value = .infer (withName ['C'] "$this unit".toList) := by
  obtain ⟨d, hd, hfrom⟩ := exists_ok_of_any (x := parse chainText .standard) (p := fun d =>
    d.comesFrom chainLine ['A'] ⟨['B'], [['A']], 3, []⟩ &&
      d.comesFrom chainLine ['B'] ⟨['C'], [['B']], 4, []⟩)
    (by decide +kernel)
  rw [Bool.and_eq_true] at hfrom
  have hchain : List.IsChain (Takes chainBlocks d.lookup ['k']) [['A'], ['B'], ['C']] := by
    refine .cons_cons ?_ (.cons_cons ?_ (.singleton _))
    · exact takes_of_comesFrom ⟨['B'], [['A']], 3, []⟩ (by decide) List.not_mem_nil hfrom.1
    · exact takes_of_comesFrom ⟨['C'], [['B']], 4, []⟩ (by decide) List.not_mem_nil hfrom.2
  obtain ⟨blocks, hblocks, hall⟩ := parse_rebinds hd
  obtain rfl := Except.ok.inj (hblocks.symm.trans ofText_chainText)
  obtain ⟨c, hc, hre⟩ := hall _ (List.mem_cons_self ..) chainLine
    (thisLine_single (by decide +kernel) (by decide)) [['B'], ['C']] hchain
  refine ⟨d, hd, hchain, c, hc, hre.redeclared (by decide +kernel) fun _ => ⟨?_, ?_, ?_⟩⟩
  · exact ⟨"A unit".toList, by with_unfolding_all rfl⟩
  · exact ⟨"C unit".toList, by with_unfolding_all rfl⟩
  · decide +kernel

/-! ## Heirs of other names -/

/-- The heir named `y` takes the key of a line from the section named `x`, and does not hold what
the line stands for in its place. -/
def Misbound (blocks : List Block) (d : Document) (x y : Text) : Prop :=
  ∃ b ∈ blocks, b.name = x ∧ ∃ line, ThisLine b line ∧ Takes blocks d.lookup line.key x y ∧
    ∃ c, d.get? y line.key = some c ∧ c.value ≠ .infer (withName y line.value)

/-- An heir holds another value than it would if it declared the line. -/
def differs (d : Document) (line : Declaration) (heir : Text) : Bool :=
  (d.get? heir line.key).any fun c =>
    c.value.kind != (Value.infer (withName heir line.value)).kind ||
      c.value.literal != (Value.infer (withName heir line.value)).literal

theorem misbound_of_differs {y : Text} (hb : b ∈ blocks) (hl : ThisLine b line)
    (ht : Takes blocks d.lookup line.key b.name y) (h : d.differs line y = true) :
    Misbound blocks d b.name y := by
  obtain ⟨c, hc, hdiff⟩ := (Option.any_eq_true _ _).1 h
  refine ⟨b, hb, rfl, line, hl, ht, c, hc, fun he => ?_⟩
  rw [he] at hdiff
  simp at hdiff

/-- A parent whose name the line holds besides, a parent that is named like a number, an heir that
is, and a parent whose name is an expression. -/
def misboundText : Text :=
  "[Unit]\nk = $this Unit\n[Knight] : Unit\n[5]\nk = $this\n[C] : 5\n".toList ++
  "[A]\nk = $this\n[6] : A\n[(1)]\nk = $this\n[2 + 3] : (1)\n".toList

/-- The blocks of `misboundText`. -/
def misboundBlocks : List Block :=
  [single "Unit".toList 1 "$this Unit".toList, ⟨"Knight".toList, ["Unit".toList], 3, []⟩,
    single ['5'] 4 "$this".toList, ⟨['C'], [['5']], 6, []⟩,
    single ['A'] 7 "$this".toList, ⟨['6'], [['A']], 9, []⟩,
    single "(1)".toList 10 "$this".toList, ⟨"2 + 3".toList, ["(1)".toList], 12, []⟩]

/-- Whether the section `heir`, two lines below the header of its only parent, misses what the line
of that parent stands for. -/
def misses (line : Nat) (value name heir : Text) (d : Document) : Bool :=
  d.comesFrom ⟨['k'], value, none, line + 1⟩ name ⟨heir, [name], line + 2, []⟩ &&
    d.differs ⟨['k'], value, none, line + 1⟩ heir

theorem misbound_of_misses {name value heir : Text} {line : Nat}
    (h : d.misses line value name heir = true) (hb : single name line value ∈ blocks)
    (hheir : ⟨heir, [name], line + 2, []⟩ ∈ blocks) (ht : ∀ x ∈ tokens value, x = thisName)
    (hp : '(' ∉ value) : Misbound blocks d name heir := by
  rw [misses, Bool.and_eq_true] at h
  exact misbound_of_differs hb (thisLine_single ht hp)
    (takes_of_comesFrom ⟨heir, [name], line + 2, []⟩ hheir List.not_mem_nil h.1) h.2

theorem misbound_names : ∃ d blocks, parse misboundText .standard = .ok d ∧
    Block.ofText misboundText Limits.standard = .ok blocks ∧
    Misbound blocks d "Unit".toList "Knight".toList ∧ Misbound blocks d ['5'] ['C'] ∧
    Misbound blocks d ['A'] ['6'] ∧ Misbound blocks d "(1)".toList "2 + 3".toList := by
  have hblocks : Block.ofText misboundText Limits.standard = .ok misboundBlocks := by
    obtain ⟨bs, hbs, he⟩ := exists_ok_of_any (x := Block.ofText misboundText Limits.standard)
      (p := fun bs => decide (bs = misboundBlocks)) (by decide +kernel)
    rw [hbs, of_decide_eq_true he]
  have hthis : ∀ x ∈ tokens "$this".toList, x = thisName := by decide +kernel
  obtain ⟨d, hd, hall⟩ := exists_ok_of_any (x := parse misboundText .standard) (p := fun d =>
    d.misses 1 "$this Unit".toList "Unit".toList "Knight".toList &&
      d.misses 4 "$this".toList ['5'] ['C'] && d.misses 7 "$this".toList ['A'] ['6'] &&
      d.misses 10 "$this".toList "(1)".toList "2 + 3".toList) (by decide +kernel)
  simp only [Bool.and_eq_true] at hall
  obtain ⟨⟨⟨h1, h2⟩, h3⟩, h4⟩ := hall
  refine ⟨d, misboundBlocks, hd, hblocks, ?_, ?_, ?_, ?_⟩
  · exact misbound_of_misses h1 (by decide) (by decide) (by decide +kernel) (by decide)
  · exact misbound_of_misses h2 (by decide) (by decide) hthis (by decide)
  · exact misbound_of_misses h3 (by decide) (by decide) hthis (by decide)
  · exact misbound_of_misses h4 (by decide) (by decide) hthis (by decide)

end Lineage.Document
