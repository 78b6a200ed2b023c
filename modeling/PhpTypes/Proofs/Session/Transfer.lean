import PhpTypes.Proofs.Session.Soundness

/-!
# Moving masks between reachable contexts

Inside a reachable context a mask and its type determine each other. Moving a mask to another
reachable context always succeeds and keeps the type, so the mask that arrives is the one that the
target has, or would have, for this type by any other route. In particular it does not matter
whether annotations are read in the target or elsewhere and then moved.
-/

namespace PhpTypes

namespace Context

variable {target source : Context}

/-! ## Types survive the move -/

/-- **Moving a mask keeps its meaning.** The mask that arrives has the type of the mask that was
moved. The target only grows, and what it grows by are entries of the types that the mask depends on
and the target lacks, one for each. -/
theorem Reachable.transfer_typeOf (ht : target.Reachable) (hs : source.Reachable) {m : Mask}
    (hm : m ∈ source.masks) :
    ∃ m' r', target.registry.transfer source.registry m = .ok (m', r') ∧
      r'.typeOf m' = source.registry.typeOf m ∧
      target.registry.Extends r' ∧
      (∀ t, (∃ slot, target.registry.size ≤ slot ∧ slot < r'.size ∧ r'.slotType slot = t) ↔
        source.registry.DependsOn m t ∧ ¬ target.registry.HasEntry t) ∧
      ∀ slot slot', slot < r'.size → slot' < r'.size → r'.slotType slot = r'.slotType slot' →
        slot = slot' := by
  have howns := hs.sound.owns m hm
  obtain ⟨⟨m', r'⟩, hmove, hyields, hadded⟩ :=
    Registry.transfer_spec ht.sound.wellFormed hs.sound.wellFormed howns
  refine ⟨m', r', hmove, hyields.typeOf_eq, hyields.grows, ?_, ?_⟩
  · exact Registry.exists_new_slot_iff ht.sound.wellFormed hs.sound.wellFormed howns hyields hadded
  · intro slot slot' hlt hlt' hsame
    exact Registry.slotType_injOn hyields.wellFormed hlt hlt' hsame

/-- An array of arrays arrives unharmed where the class is known under another spelling. -/
theorem transfer_typeOf_of_nested_arrays :
    ∃ m' r', (reading "foo").registry.transfer (reading "Foo[][]").registry
        (TypeExpr.resolve none false "Foo[][]" .empty).1 = .ok (m', r') ∧
      r'.typeOf m' = TypeExpr.annotationType none false "Foo[][]" := by
  have hread : (TypeExpr.resolve none false "Foo[][]" .empty).1 ∈ (reading "Foo[][]").masks :=
    List.mem_cons_self
  obtain ⟨m', r', hmove, htype, -⟩ :=
    Reachable.transfer_typeOf (.reading "foo") (.reading "Foo[][]") hread
  exact ⟨m', r', hmove, htype.trans (TypeExpr.resolve_yields .empty "Foo[][]").typeOf_eq⟩

/-! ## Masks identify types -/

/-- In a sound context, masks are equal exactly if they have the same type. -/
theorem Sound.eq_iff_typeOf_eq {c : Context} (h : c.Sound) {a b : Mask} (ha : a ∈ c.masks)
    (hb : b ∈ c.masks) : a = b ↔ c.registry.typeOf a = c.registry.typeOf b := by
  constructor
  · rintro rfl
    rfl
  · intro htype
    exact Registry.typeOf_injOn h.wellFormed (h.owns a ha) (h.owns b hb) htype

/-- Masks of two sound contexts, moved to a third one after the other, arrive as equal masks exactly
if they have the same type. -/
theorem Sound.transfer_eq_iff {left right : Context} (hl : left.Sound) (hr : right.Sound)
    (ht : target.Sound) {a b : Mask} (ha : a ∈ left.masks) (hb : b ∈ right.masks) :
    ∃ a' r b' r', target.registry.transfer left.registry a = .ok (a', r) ∧
      r.transfer right.registry b = .ok (b', r') ∧
      (a' = b' ↔ left.registry.typeOf a = right.registry.typeOf b) := by
  obtain ⟨⟨a', r⟩, hmoveA, hyieldsA, -⟩ :=
    Registry.transfer_spec ht.wellFormed hl.wellFormed (hl.owns a ha)
  obtain ⟨⟨b', r'⟩, hmoveB, hyieldsB, -⟩ :=
    Registry.transfer_spec hyieldsA.wellFormed hr.wellFormed (hr.owns b hb)
  refine ⟨a', r, b', r', hmoveA, hmoveB, ?_⟩
  have htypeA : r'.typeOf a' = left.registry.typeOf a := by
    rw [Registry.typeOf_extend hyieldsA.wellFormed hyieldsB.grows hyieldsA.owns]
    exact hyieldsA.typeOf_eq
  have htypeB : r'.typeOf b' = right.registry.typeOf b := hyieldsB.typeOf_eq
  rw [← htypeA, ← htypeB]
  constructor
  · rintro rfl
    rfl
  · intro htype
    have hownsA : r'.Owns a' := hyieldsA.owns.extend hyieldsB.grows
    exact Registry.typeOf_injOn hyieldsB.wellFormed hownsA hyieldsB.owns htype

/-- **A mask is the identity of a type**, within one context and across contexts: moving masks
neither merges types nor gives a type a second mask. -/
theorem Reachable.mask_eq_iff {left right : Context} (hl : left.Reachable) (hr : right.Reachable)
    (ht : target.Reachable) :
    (∀ a ∈ left.masks, ∀ b ∈ left.masks,
      a = b ↔ left.registry.typeOf a = left.registry.typeOf b) ∧
    ∀ a ∈ left.masks, ∀ b ∈ right.masks, ∃ a' r b' r',
      target.registry.transfer left.registry a = .ok (a', r) ∧
      r.transfer right.registry b = .ok (b', r') ∧
      (a' = b' ↔ left.registry.typeOf a = right.registry.typeOf b) := by
  constructor
  · intro a ha b hb
    exact hl.sound.eq_iff_typeOf_eq ha hb
  · intro a ha b hb
    exact hl.sound.transfer_eq_iff hr.sound ht.sound ha hb

/-- An annotation that was read in two contexts arrives as one mask, though one of the contexts knew
the class before under another spelling. -/
theorem mask_eq_of_same_annotation :
    ∃ a' r b' r', Registry.empty.transfer (reading "Foo[]").registry
        (TypeExpr.resolve none false "Foo[]" .empty).1 = .ok (a', r) ∧
      r.transfer ((reading "foo").answer (.resolve none false "Foo[]")).registry
        (TypeExpr.resolve none false "Foo[]" (reading "foo").registry).1 = .ok (b', r') ∧
      a' = b' := by
  have hright : ((reading "foo").answer (.resolve none false "Foo[]")).Reachable :=
    (Reachable.reading "foo").answer fun _ hm => absurd hm List.not_mem_nil
  obtain ⟨-, hmoves⟩ := Reachable.mask_eq_iff (.reading "Foo[]") hright .empty
  obtain ⟨a', r, b', r', hmoveA, hmoveB, hiff⟩ :=
    hmoves _ List.mem_cons_self _ List.mem_cons_self
  refine ⟨a', r, b', r', hmoveA, hmoveB, hiff.mpr ?_⟩
  have hwf : (reading "foo").registry.WellFormed := (Reachable.reading "foo").sound.wellFormed
  exact (TypeExpr.resolve_yields .empty "Foo[]").typeOf_eq.trans
    (TypeExpr.resolve_yields hwf "Foo[]").typeOf_eq.symm

/-! ## Reading elsewhere -/

/-- **To read annotations elsewhere and move their union is to read them in the target.** Read there
afterwards, they give the mask that arrived, and, unless it is the top, no entry is added. Behind
the top, entries may be missing: the annotations it absorbed were never moved. -/
theorem Reachable.resolveAll_of_resolveAndTransfer (ht : target.Reachable) (hs : source.Reachable)
    (scope : Option Scope) (fullyQualified : Bool) (texts : List String) :
    ∃ m target' source',
      target.registry.resolveAndTransfer source.registry scope fullyQualified texts =
        .ok (m, target', source') ∧
      (TypeExpr.resolveAll scope fullyQualified texts target').1 = m ∧
      (m ≠ .any → (TypeExpr.resolveAll scope fullyQualified texts target').2 = target') := by
  obtain ⟨⟨m, target'⟩, hmove, hyields⟩ := Registry.resolveAndTransfer_yields ht.sound.wellFormed
    hs.sound.wellFormed scope fullyQualified texts
  have hwf : target'.WellFormed := hyields.wellFormed
  have howns : target'.Owns m := hyields.owns
  have htype : target'.typeOf m = TypeExpr.annotationsType scope fullyQualified texts :=
    hyields.typeOf_eq
  refine ⟨m, target', _, hmove, ?_, ?_⟩
  · have hagain : target'.Yields (TypeExpr.annotationsType scope fullyQualified texts)
        (TypeExpr.resolveAll scope fullyQualified texts target') :=
      TypeExpr.resolveAll_yields hwf texts
    -- Both masks are of the type of the annotations, once the target has grown for the second time.
    have hsame : (TypeExpr.resolveAll scope fullyQualified texts target').2.typeOf m =
        TypeExpr.annotationsType scope fullyQualified texts := by
      rw [Registry.typeOf_extend hwf hagain.grows howns, htype]
    exact Registry.typeOf_injOn hagain.wellFormed hagain.owns (howns.extend hagain.grows)
      (hagain.typeOf_eq.trans hsame.symm)
  · intro hany
    have hcovers : target'.Covers (TypeExpr.annotationsType scope fullyQualified texts) := by
      rw [← htype]
      exact Registry.covers_typeOf hwf howns
    have hbelow : TypeExpr.annotationsType scope fullyQualified texts ≠ .any := by
      rw [← htype]
      intro htop
      exact hany ((Registry.typeOf_eq_any_iff hwf howns).mp htop)
    exact TypeExpr.resolveAll_snd_of_covers hwf hcovers hbelow

theorem resolveAll_of_resolveAndTransfer_union :
    ∃ m target' source',
      (reading "foo").registry.resolveAndTransfer (reading "FOO[]").registry none false
        ["Foo[][]", "Bar"] = .ok (m, target', source') ∧
      (TypeExpr.resolveAll none false ["Foo[][]", "Bar"] target').1 = m := by
  obtain ⟨m, target', source', hmove, hsame, -⟩ := Reachable.resolveAll_of_resolveAndTransfer
    (.reading "foo") (.reading "FOO[]") none false ["Foo[][]", "Bar"]
  exact ⟨m, target', source', hmove, hsame⟩

end Context

end PhpTypes
