import PhpTypes.Proofs.Session.Basic
import PhpTypes.Proofs.TypeExpr.Meaning

/-!
# Reachable contexts are sound

The invariant of a context is that its registry is well-formed and owns every mask obtained in it.
Every request answers with a mask of a type that can be told from the request and the masks it is
given (`Request.run_yields`), so requests keep the invariant; so do copies and moves between two
contexts. By induction over the steps of a session, every reachable context is sound.

`Context.Canonical` spells out what this means for the index, the entries and the masks.
-/

namespace PhpTypes

/-! ## Requests -/

/-- The type that a request asks for, in terms of the types that its masks have in a registry. -/
noncomputable def Request.typeIn (r : Registry) : Request → PhpType
  | resolve scope fullyQualified text => TypeExpr.annotationType scope fullyQualified text
  | resolveAll scope fullyQualified texts => TypeExpr.annotationsType scope fullyQualified texts
  | resolveText scope text => TypeExpr.annotationsType scope false (TypeExpr.splitAlternatives text)
  | known word => (Keyword.maskOf word).kindType
  | arrayOf element => .arrayOf (r.typeOf element)
  | nominal text allowNull =>
    let name := QualifiedName.parse text
    if allowNull then TypeExpr.nullableClass name else .of ∅ {name.toText.foldCase} ∅
  | union a b => r.typeOf a ∪ r.typeOf b
  | kindPart m => m.kindType

/-- Leaving out the slots of a mask does not change the type of its kinds. -/
theorem Mask.kindType_kindPart (m : Mask) : m.kindPart.kindType = m.kindType := by
  cases m <;> rfl

/-- **A request is answered with a mask of the type it asks for**, in an extension of the
registry. -/
theorem Request.run_yields {r : Registry} (h : r.WellFormed) (q : Request)
    (hq : ∀ m ∈ q.inputs, r.Owns m) : r.Yields (q.typeIn r) (q.run r) := by
  cases q with
  | resolve scope fullyQualified text => exact TypeExpr.resolve_yields h text
  | resolveAll scope fullyQualified texts => exact TypeExpr.resolveAll_yields h texts
  | resolveText scope text => exact TypeExpr.resolveAll_yields h _
  | known word => exact Registry.yields_of_slots_eq_empty h (Keyword.slots_maskOf word)
  | arrayOf element =>
    have helement : r.Owns element := hq element (List.mem_singleton_self element)
    exact (Registry.arrayOf_yields h helement).1
  | nominal text allowNull =>
    exact TypeExpr.nominalMask_yields h (QualifiedName.head?_toText_parse text) allowNull
  | union a b =>
    have ha : r.Owns a := hq a List.mem_cons_self
    have hb : r.Owns b := hq b (List.mem_cons_of_mem a (List.mem_singleton_self b))
    exact ⟨h, .refl r, ha.union hb, Registry.typeOf_union h ha hb⟩
  | kindPart m =>
    have hpart : r.Yields m.kindPart.kindType (m.kindPart, r) :=
      Registry.yields_of_slots_eq_empty h m.slots_kindPart
    rw [m.kindType_kindPart] at hpart
    exact hpart

/-! ## The invariant -/

/-- The registry is well-formed and owns every mask obtained in the context. -/
structure Context.Sound (c : Context) : Prop where
  wellFormed : c.registry.WellFormed
  owns : ∀ m ∈ c.masks, c.registry.Owns m

/-- Every context is sound. -/
def Session.Sound (s : Session) : Prop :=
  ∀ c ∈ s, c.Sound

namespace Context

/-- The empty context is sound. -/
theorem Sound.empty : Context.empty.Sound where
  wellFormed := .empty
  owns _ hm := absurd hm List.not_mem_nil

/-- A context stays sound when its registry grows. -/
theorem Sound.extend {c : Context} (h : c.Sound) {r : Registry} (hr : r.WellFormed)
    (hext : c.registry.Extends r) : ({ c with registry := r } : Context).Sound where
  wellFormed := hr
  owns m hm := (h.owns m hm).extend hext

/-- A context stays sound when it obtains a mask of some type. -/
theorem Sound.obtain {c : Context} (h : c.Sound) {t : PhpType} {answer : Mask × Registry}
    (hyields : c.registry.Yields t answer) : (c.obtain answer).Sound where
  wellFormed := hyields.wellFormed
  owns m hm := by
    rcases List.mem_cons.mp hm with rfl | hold
    · exact hyields.owns
    · exact (h.owns m hold).extend hyields.grows

end Context

namespace Session

/-- One more sound context keeps a session sound. -/
theorem Sound.append_singleton {s : Session} {c : Context} (h : s.Sound) (hc : c.Sound) :
    Sound (s ++ [c]) := by
  intro d hd
  rcases List.mem_append.mp hd with hold | hnew
  · exact h d hold
  · rw [List.mem_singleton.mp hnew]
    exact hc

/-- A sound context in place of another one keeps a session sound. -/
theorem Sound.set {s : Session} {c : Context} (h : s.Sound) (i : Nat) (hc : c.Sound) :
    Sound (s.set i c) := by
  intro d hd
  rcases List.mem_or_eq_of_mem_set hd with hold | rfl
  · exact h d hold
  · exact hc

/-- One operation keeps every context sound. -/
theorem Step.sound {s s' : Session} (hstep : Step s s') (h : s.Sound) : s'.Sound := by
  cases hstep with
  | create => exact h.append_singleton .empty
  | clone hc => exact h.append_singleton (h _ hc)
  | @request i c q hc hq =>
    have hsound := h c (List.mem_of_getElem? hc)
    have hyields := q.run_yields hsound.wellFormed fun m hm => hsound.owns m (hq m hm)
    exact h.set i (hsound.obtain hyields)
  | @transfer i j target source m answer hne htarget hsource hm hanswer =>
    have ht := h target (List.mem_of_getElem? htarget)
    have hs := h source (List.mem_of_getElem? hsource)
    obtain ⟨answer', hmove, hyields, -⟩ :=
      Registry.transfer_spec ht.wellFormed hs.wellFormed (hs.owns m hm)
    obtain rfl : answer' = answer := Except.ok.inj (hmove.symm.trans hanswer)
    exact h.set i (ht.obtain hyields)
  | @resolveAndTransfer i j target source scope fullyQualified texts m target' source' hne htarget
      hsource hanswer =>
    have ht := h target (List.mem_of_getElem? htarget)
    have hs := h source (List.mem_of_getElem? hsource)
    obtain ⟨answer, hmove, hyields⟩ := Registry.resolveAndTransfer_yields ht.wellFormed
      hs.wellFormed scope fullyQualified texts
    obtain ⟨rfl, rfl, rfl⟩ : answer.1 = m ∧ answer.2 = target' ∧
        (TypeExpr.resolveAll scope fullyQualified texts source.registry).2 = source' := by
      simpa using hmove.symm.trans hanswer
    have hread : source.registry.Yields (TypeExpr.annotationsType scope fullyQualified texts)
        (TypeExpr.resolveAll scope fullyQualified texts source.registry) :=
      TypeExpr.resolveAll_yields hs.wellFormed texts
    -- The target obtains a mask; the source only gets the entries that reading has added.
    exact (h.set i (ht.obtain hyields)).set j (hs.extend hread.wellFormed hread.grows)

/-- A run keeps every context sound. -/
theorem Steps.sound {s s' : Session} (hsteps : Steps s s') (h : s.Sound) : s'.Sound := by
  induction hsteps with
  | refl => exact h
  | tail _ hstep ih => exact hstep.sound ih

end Session

/-- Every reachable context is sound. -/
theorem Context.Reachable.sound {c : Context} (h : c.Reachable) : c.Sound := by
  obtain ⟨s, hs, hc⟩ := h
  exact hs.sound (fun _ hd => absurd hd List.not_mem_nil) c hc

/-! ## What soundness means -/

namespace Context

/-- A mask is held by a context if it was obtained there or is the element of an entry. -/
def Holds (c : Context) (m : Mask) : Prop :=
  m ∈ c.masks ∨ ∃ slot, c.registry.descriptor? slot = some (.arrayOf m)

/-- The index inverts the entries, arrays refer to earlier entries, and masks are in canonical
form. -/
structure Canonical (c : Context) : Prop where
  /-- The index holds the keys of the entries with their slots, and nothing else. -/
  index_eq_some_iff : ∀ key slot, c.registry.index[key]? = some slot ↔
    ∃ d, c.registry.descriptor? slot = some d ∧ d.key = key
  slot_unique : ∀ slot slot' d d', c.registry.descriptor? slot = some d →
    c.registry.descriptor? slot' = some d' → d.key = d'.key → slot = slot'
  element_ne : ∀ slot e, c.registry.descriptor? slot = some (.arrayOf e) → e ≠ .void ∧ e ≠ .any
  element_lt : ∀ slot e, c.registry.descriptor? slot = some (.arrayOf e) →
    ∀ inner ∈ e.slots, inner < slot
  slot_lt : ∀ m, c.Holds m → ∀ slot ∈ m.slots, slot < c.registry.size
  ascending : ∀ m, c.Holds m → m.slots.toList.Pairwise (· < ·)
  /-- A mask that refers to an array also lists the kind of arrays. -/
  array_mem : ∀ m, c.Holds m → ∀ slot ∈ m.slots, ∀ e,
    c.registry.descriptor? slot = some (.arrayOf e) → Kind.array ∈ m.kinds
  any_bare : ∀ m, c.Holds m → m.isAny = true → m.kinds = ∅ ∧ m.slots = ∅

/-- The registry of a sound context owns every mask that the context holds. -/
theorem Sound.owns_of_holds {c : Context} (h : c.Sound) {m : Mask} (hm : c.Holds m) :
    c.registry.Owns m := by
  rcases hm with hm | ⟨slot, hslot⟩
  · exact h.owns m hm
  · exact h.wellFormed.owns_element hslot

/-- **Every reachable context is canonical.** No order of requests, copies and moves gives a context
whose index misses an entry, whose entries repeat, or that holds a malformed mask. -/
theorem Reachable.canonical {c : Context} (h : c.Reachable) : c.Canonical where
  index_eq_some_iff := h.sound.wellFormed.index_eq_some_iff
  slot_unique _ _ _ _ hd hd' hkey := h.sound.wellFormed.slot_unique hd hd' hkey
  element_ne slot e he := by
    obtain ⟨hvoid, hany, -⟩ := h.sound.wellFormed.admits slot (.arrayOf e) he
    exact ⟨hvoid, hany⟩
  element_lt := h.sound.wellFormed.element_lt
  slot_lt m hm := (h.sound.owns_of_holds hm).slot_lt
  ascending m _ := m.slots.ascending
  array_mem m hm := (h.sound.owns_of_holds hm).array_mem
  any_bare m _ hany := by
    cases m with
    | any => exact ⟨rfl, rfl⟩
    | of kinds slots => cases hany

/-- The context that has read `Foo[][]`. -/
theorem canonical_of_nested_arrays :
    (reading "Foo[][]").Reachable ∧ (reading "Foo[][]").Canonical :=
  ⟨.reading "Foo[][]", Reachable.canonical (.reading "Foo[][]")⟩

end Context

end PhpTypes
