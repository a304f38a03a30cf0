import Lineage.Proofs.Section.Call
/-!
# Traced sections

A section does not note how its properties came in. A traced section does: each slot keeps the
origin of its property, and calls move slots as they move properties (`untraced_call`). A slot
behind a call continues one before it, or the call has put it (`came_of_mem_call`).
-/
namespace Lineage

/-- The property `q` is `p` with other contents; a mark of a change stays. -/
structure Property.Continues (p q : Property) : Prop where
  key : q.key = p.key
  owner : q.owner = p.owner
  inherited : q.inherited = p.inherited
  modified : p.modified = true → q.modified = true
  cloned : q.cloned = p.cloned

namespace Property

variable {p q r : Property}

theorem Continues.refl (p : Property) : p.Continues p := ⟨rfl, rfl, rfl, id, rfl⟩

theorem Continues.trans (h : p.Continues q) (h' : q.Continues r) : p.Continues r :=
  ⟨h'.key.trans h.key, h'.owner.trans h.owner, h'.inherited.trans h.inherited,
    fun hp => h'.modified (h.modified hp), h'.cloned.trans h.cloned⟩

theorem continues_setValue (p : Property) (v : Value) : p.Continues (p.setValue v) :=
  ⟨rfl, rfl, rfl, fun _ => rfl, rfl⟩

theorem continues_setComment (p : Property) (c : Option Text) : p.Continues (p.setComment c) :=
  ⟨rfl, rfl, rfl, id, rfl⟩

theorem continues_setDerived (p : Property) (v : Value) : p.Continues (p.setDerived v) :=
  ⟨rfl, rfl, rfl, id, rfl⟩

theorem Continues.isDifference (h : p.Continues q) (hp : p.isDifference = true) :
    q.isDifference = true := by
  unfold Property.isDifference at hp ⊢
  rw [Bool.or_eq_true] at hp ⊢
  rw [h.inherited]
  exact hp.imp_right h.modified

end Property

namespace Section

/-- How a property came into its section. -/
inductive Origin where
  /-- The property was inserted, as it is here. -/
  | inserted (p : Property)
  /-- A value was assigned to a key that was not there. -/
  | assigned
  /-- A merge of the parent with the name copied it. -/
  | merged (parent : Text)

/-- A property and how it came in. -/
structure Slot where
  property : Property
  origin : Origin

/-- A section that notes the origins of its properties. -/
structure Traced where
  name : Text
  parents : List Text
  slots : List Slot

namespace Slot

/-- The key of the property. -/
def key (e : Slot) : Text := e.property.key

/-- Changes the property. -/
def modify (f : Property → Property) (e : Slot) : Slot := { e with property := f e.property }

/-- The slot `e'` is `e` with other contents. -/
structure Continues (e e' : Slot) : Prop where
  property : e.property.Continues e'.property
  origin : e'.origin = e.origin

end Slot

namespace Traced

/-- The section without the origins. -/
def untraced (t : Traced) : Section := ⟨t.name, t.parents, t.slots.map Slot.property⟩

/-- A section without parents and properties. -/
def new (name : Text) : Traced := ⟨name, [], []⟩

/-- Changes the property with the key. -/
def modify (t : Traced) (key : Text) (f : Property → Property) : Traced :=
  { t with slots := modifyFirst Slot.key (Slot.modify f) key t.slots }

/-- Takes the slot with the key away. -/
def erase (t : Traced) (key : Text) : Traced :=
  { t with slots := t.slots.eraseP (·.property.key == key) }

/-- Puts a slot behind the others. -/
def append (t : Traced) (p : Property) (o : Origin) : Traced :=
  { t with slots := t.slots ++ [⟨p.attach t.name, o⟩] }

/-- Keeps the last slot of each key. -/
def keepLast (t : Traced) : Traced := { t with slots := Lineage.keepLast Slot.key t.slots }

/-- Notes the parent and appends slots for the copies of its properties. -/
def appendCopies (t : Traced) (parent : Section) : Traced :=
  { t with
    parents := t.parents ++ [parent.name]
    slots := t.slots ++
      parent.properties.map fun p => ⟨p.inheritedBy t.name, .merged parent.name⟩ }

/-- Derives the property with the key again. -/
def rederive (t : Traced) (parent key : Text) (L : Lookup) : Traced :=
  match t.untraced.get? key with
  | none => t
  | some p => match t.untraced.rederived? p parent L with
    | .ok (some v) => t.modify key (·.setDerived v)
    | _ => t

/-- Derives the properties with these keys again, up to the first that fails. -/
def rederiveAll (parent : Text) (L : Lookup) : List Text → Traced → Traced
  | [], t => t
  | key :: keys, t => match t.untraced.rederive parent key L with
    | .error _ => t
    | .ok _ => rederiveAll parent L keys (t.rederive parent key L)

/-- Declares a property, if it may. -/
def insert (t : Traced) (p : Property) (overwrite : Bool) : Traced :=
  if t.untraced.hasKey p.key && !overwrite then t else (t.erase p.key).append p (.inserted p)

/-- Assigns a value, in place if the key is there. -/
def set (t : Traced) (key : Text) (v : Value) : Traced :=
  if t.untraced.hasKey key then t.modify key (·.setValue v)
  else t.append (.new key v .blank) .assigned

/-- Keeps the last slot of each key, if it may. -/
def validate (t : Traced) (overwrite : Bool) : Traced :=
  match t.untraced.validate overwrite with
  | .error _ => t
  | .ok _ => t.keepLast

/-- Merges a parent, as far as that goes. -/
def inheritWith (t : Traced) (parent : Section) (overwrite : Bool) (L : Lookup) : Traced :=
  match (t.untraced.appendCopies parent).validate overwrite with
  | .error _ => t.appendCopies parent
  | .ok _ => rederiveAll parent.name L parent.derivedKeys (t.appendCopies parent).keepLast

/-- What a call leaves behind of a traced section. -/
def call (t : Traced) : Call → Traced
  | .insert p overwrite => t.insert p overwrite
  | .set key v => t.set key v
  | .setValue key v => t.modify key (·.setValue v)
  | .setComment key c => t.modify key (·.setComment c)
  | .erase key => t.erase key
  | .inheritWith parent overwrite L => t.inheritWith parent overwrite L
  | .validate overwrite => t.validate overwrite

/-- What calls leave behind, one after another. -/
def calls (t : Traced) (cs : List Call) : Traced := cs.foldl call t

end Traced

/-- The parents that a call notes. -/
def Call.newParents : Call → List Text
  | inheritWith parent _ _ => [parent.name]
  | _ => []

/-- What calls leave behind, one after another. -/
def calls (s : Section) (cs : List Call) : Section := cs.foldl (fun s c => (s.call c).state) s

variable {t : Traced} {s : Section} {c : Call} {cs : List Call} {e e' : Slot} {es : List Slot}
  {p q : Property} {key k : Text} {f : Property → Property}

/-! ## Origins forgotten -/

namespace Traced

theorem untraced_modify (t : Traced) (key : Text) (f : Property → Property) :
    (t.modify key f).untraced = t.untraced.modify key f := by
  have hkey (e : Slot) : e.property.key = e.key := rfl
  have hproperty (e : Slot) : f e.property = (e.modify f).property := rfl
  simp only [modify, untraced, Section.modify, modifyFirst_map hkey hproperty]

theorem untraced_erase (t : Traced) (key : Text) :
    (t.erase key).untraced = t.untraced.erase key := by
  simp only [erase, untraced, Section.erase, List.eraseP_map, Function.comp_def]

theorem untraced_append (t : Traced) (p : Property) (o : Origin) : (t.append p o).untraced =
    { t.untraced with properties := t.untraced.properties ++ [p.attach t.name] } := by
  simp only [append, untraced, List.map_append, List.map_cons, List.map_nil]

theorem untraced_keepLast (t : Traced) : t.keepLast.untraced =
    { t.untraced with properties := Lineage.keepLast Property.key t.untraced.properties } := by
  have hkey (e : Slot) : e.property.key = e.key := rfl
  simp only [keepLast, untraced, keepLast_map hkey]

theorem untraced_appendCopies (t : Traced) (parent : Section) :
    (t.appendCopies parent).untraced = t.untraced.appendCopies parent := by
  simp only [appendCopies, untraced, Section.appendCopies, List.map_append, List.map_map,
    Function.comp_def]

/-- Without its slots, a section is derived again alike. -/
theorem untraced_rederive {parent : Text} {L : Lookup}
    (h : t.untraced.rederive parent key L = .ok s) : (t.rederive parent key L).untraced = s := by
  unfold Section.rederive at h
  unfold rederive
  cases hp : t.untraced.get? key with
  | none =>
    rw [hp] at h
    exact Except.ok.inj h
  | some p =>
    simp only [hp] at h ⊢
    rcases hv : t.untraced.rederived? p parent L with f | _ | v <;> simp only [hv] at h ⊢
    · cases h
    · exact Except.ok.inj h
    · rw [untraced_modify]
      exact Except.ok.inj h

theorem untraced_rederiveAll (parent : Text) (L : Lookup) (keys : List Text) (t : Traced) :
    (rederiveAll parent L keys t).untraced =
      (Section.rederiveAll parent L keys t.untraced).state := by
  induction keys generalizing t with
  | nil => rfl
  | cons key keys ih =>
    unfold rederiveAll Section.rederiveAll
    cases h : t.untraced.rederive parent key L with
    | error f => rfl
    | ok s => rw [ih, untraced_rederive h]

/-- Traced calls do what the calls do. -/
theorem untraced_call (t : Traced) (c : Call) :
    (t.call c).untraced = (t.untraced.call c).state := by
  cases c with
  | insert p overwrite =>
    rw [call_insert]
    unfold call insert Section.insert
    simp only
    split
    · rfl
    · rw [untraced_append, untraced_erase]
      rfl
  | set key v =>
    change (t.set key v).untraced = t.untraced.set key v
    unfold set Section.set
    split
    · exact untraced_modify t key _
    · exact untraced_append t _ _
  | setValue key v => exact untraced_modify t key _
  | setComment key c => exact untraced_modify t key _
  | erase key => exact untraced_erase t key
  | validate overwrite =>
    rw [call_validate]
    change (t.validate overwrite).untraced = _
    unfold validate
    cases h : t.untraced.validate overwrite with
    | error f => rfl
    | ok m => exact (untraced_keepLast t).trans (validate_ok h).symm
  | inheritWith parent overwrite L =>
    rw [call_inheritWith]
    change (t.inheritWith parent overwrite L).untraced = _
    unfold inheritWith Section.inheritWith
    cases h : (t.untraced.appendCopies parent).validate overwrite with
    | error f => exact untraced_appendCopies t parent
    | ok m =>
      simp only
      rw [untraced_rederiveAll, untraced_keepLast, untraced_appendCopies, validate_ok h]

theorem untraced_calls (t : Traced) (cs : List Call) :
    (t.calls cs).untraced = t.untraced.calls cs := by
  induction cs generalizing t with
  | nil => rfl
  | cons c cs ih =>
    refine (ih (t.call c)).trans ?_
    rw [untraced_call]
    rfl

end Traced

/-! ## Slots before and behind a call -/

namespace Slot

theorem Continues.refl (e : Slot) : e.Continues e := ⟨.refl _, rfl⟩

theorem Continues.trans {e₁ e₂ e₃ : Slot} (h : e₁.Continues e₂) (h' : e₂.Continues e₃) :
    e₁.Continues e₃ :=
  ⟨h.property.trans h'.property, h'.origin.trans h.origin⟩

theorem continues_of_mem_modifyFirst (hf : ∀ p : Property, p.Continues (f p))
    (h : e' ∈ modifyFirst Slot.key (Slot.modify f) key es) : ∃ e ∈ es, e.Continues e' := by
  rcases mem_modifyFirst h with h | ⟨e, he, -, rfl⟩
  · exact ⟨e', h, .refl e'⟩
  · exact ⟨e, he, hf e.property, rfl⟩

end Slot

namespace Traced

/-- How a slot got into the section that a call leaves behind. -/
inductive Came (t : Traced) (c : Call) (e' : Slot) : Prop where
  | kept (e : Slot) (mem : e ∈ t.slots) (same : e.Continues e')
  | inserted (p : Property) (overwrite : Bool) (call : c = .insert p overwrite)
      (slot : e' = ⟨p.attach t.name, .inserted p⟩)
  | assigned (key : Text) (v : Value) (call : c = .set key v)
      (slot : e' = ⟨(Property.new key v .blank).attach t.name, .assigned⟩)
  | merged (parent : Section) (overwrite : Bool) (L : Lookup) (p : Property)
      (call : c = .inheritWith parent overwrite L) (mem : p ∈ parent.properties)
      (same : Slot.Continues ⟨p.inheritedBy t.name, .merged parent.name⟩ e')

theorem continues_of_mem_rederive {parent : Text} {L : Lookup}
    (h : e' ∈ (t.rederive parent key L).slots) : ∃ e ∈ t.slots, e.Continues e' := by
  unfold rederive at h
  split at h
  · exact ⟨e', h, .refl e'⟩
  · split at h
    · exact Slot.continues_of_mem_modifyFirst (fun p => p.continues_setDerived _) h
    · exact ⟨e', h, .refl e'⟩

theorem continues_of_mem_rederiveAll {parent : Text} {L : Lookup} {keys : List Text}
    (h : e' ∈ (rederiveAll parent L keys t).slots) : ∃ e ∈ t.slots, e.Continues e' := by
  induction keys generalizing t with
  | nil => exact ⟨e', h, .refl e'⟩
  | cons key keys ih =>
    unfold rederiveAll at h
    split at h
    · exact ⟨e', h, .refl e'⟩
    · obtain ⟨e₁, h₁, hsame₁⟩ := ih h
      obtain ⟨e, he, hsame⟩ := continues_of_mem_rederive h₁
      exact ⟨e, he, hsame.trans hsame₁⟩

theorem continues_of_mem_inheritWith {parent : Section} {overwrite : Bool} {L : Lookup}
    (h : e' ∈ (t.inheritWith parent overwrite L).slots) :
    ∃ e ∈ (t.appendCopies parent).slots, e.Continues e' := by
  unfold inheritWith at h
  split at h
  · exact ⟨e', h, .refl e'⟩
  · obtain ⟨e, he, hsame⟩ := continues_of_mem_rederiveAll h
    exact ⟨e, (keepLast_sublist _ _).subset he, hsame⟩

theorem frame_rederive (t : Traced) (parent key : Text) (L : Lookup) :
    (t.rederive parent key L).name = t.name ∧ (t.rederive parent key L).parents = t.parents := by
  unfold rederive
  split
  · exact ⟨rfl, rfl⟩
  · split <;> exact ⟨rfl, rfl⟩

theorem frame_rederiveAll (parent : Text) (L : Lookup) (keys : List Text) (t : Traced) :
    (rederiveAll parent L keys t).name = t.name ∧
      (rederiveAll parent L keys t).parents = t.parents := by
  induction keys generalizing t with
  | nil => exact ⟨rfl, rfl⟩
  | cons key keys ih =>
    unfold rederiveAll
    split
    · exact ⟨rfl, rfl⟩
    · obtain ⟨hname, hparents⟩ := frame_rederive t parent key L
      exact ⟨(ih _).1.trans hname, (ih _).2.trans hparents⟩

/-- A call renames nothing, and only a merge notes a parent. -/
theorem frame_call (t : Traced) (c : Call) :
    (t.call c).name = t.name ∧ (t.call c).parents = t.parents ++ c.newParents := by
  cases c with
  | insert p overwrite =>
    simp only [call, insert, Call.newParents, List.append_nil]
    split <;> exact ⟨rfl, rfl⟩
  | set key v =>
    simp only [call, set, Call.newParents, List.append_nil]
    split <;> exact ⟨rfl, rfl⟩
  | setValue key v | setComment key comment | erase key => exact ⟨rfl, (List.append_nil _).symm⟩
  | validate overwrite =>
    simp only [call, validate, Call.newParents, List.append_nil]
    split <;> exact ⟨rfl, rfl⟩
  | inheritWith parent overwrite L =>
    simp only [call, inheritWith, Call.newParents]
    split
    · exact ⟨rfl, rfl⟩
    · exact frame_rederiveAll parent.name L parent.derivedKeys _

/-- A call moves slots, changes their contents, drops some, and puts only what it says. -/
theorem came_of_mem_call (h : e' ∈ (t.call c).slots) : Came t c e' := by
  cases c with
  | insert p overwrite =>
    change e' ∈ (t.insert p overwrite).slots at h
    unfold insert at h
    split at h
    · exact .kept e' h (.refl e')
    · rcases List.mem_append.1 h with h | h
      · exact .kept e' (List.mem_of_mem_eraseP h) (.refl e')
      · exact .inserted p overwrite rfl (List.mem_singleton.1 h)
  | set key v =>
    change e' ∈ (t.set key v).slots at h
    unfold set at h
    split at h
    · obtain ⟨e, he, hsame⟩ :=
        Slot.continues_of_mem_modifyFirst (fun p => p.continues_setValue v) h
      exact .kept e he hsame
    · rcases List.mem_append.1 h with h | h
      · exact .kept e' h (.refl e')
      · exact .assigned key v rfl (List.mem_singleton.1 h)
  | setValue key v =>
    obtain ⟨e, he, hsame⟩ :=
      Slot.continues_of_mem_modifyFirst (fun p => p.continues_setValue v) h
    exact .kept e he hsame
  | setComment key comment =>
    obtain ⟨e, he, hsame⟩ :=
      Slot.continues_of_mem_modifyFirst (fun p => p.continues_setComment comment) h
    exact .kept e he hsame
  | erase key => exact .kept e' (List.mem_of_mem_eraseP h) (.refl e')
  | validate overwrite =>
    change e' ∈ (t.validate overwrite).slots at h
    unfold validate at h
    split at h
    · exact .kept e' h (.refl e')
    · exact .kept e' ((keepLast_sublist _ _).subset h) (.refl e')
  | inheritWith parent overwrite L =>
    -- whatever else a merge does, it starts with all old slots and all copies
    obtain ⟨e, he, hsame⟩ := continues_of_mem_inheritWith h
    rcases List.mem_append.1 he with he | he
    · exact .kept e he hsame
    · obtain ⟨p, hp, rfl⟩ := List.mem_map.1 he
      exact .merged parent overwrite L p rfl hp hsame

end Traced
end Section
end Lineage
