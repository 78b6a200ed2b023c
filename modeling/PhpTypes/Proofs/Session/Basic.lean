import PhpTypes.TypeExpr.Meaning

/-!
# Sessions

A session holds contexts. A context is a registry together with the masks that have been obtained in
it. A `Request` reads annotations in one context or builds a mask from masks of that context; a
context can be created and copied; and masks can be moved from one context to another (`Step`).

Masks mean nothing outside their context, so every step is only given masks of the context it works
on. A context is reachable if it is part of a session that steps lead to from no contexts at all.
-/

namespace PhpTypes

/-- A request to one registry. -/
inductive Request where
  /-- Reads one annotation. -/
  | resolve (scope : Option Scope) (fullyQualified : Bool) (text : String)
  /-- Reads several annotations as a union. -/
  | resolveAll (scope : Option Scope) (fullyQualified : Bool) (texts : List String)
  /-- Reads the type text of a doc comment. -/
  | resolveText (scope : Option Scope) (text : String)
  /-- Looks up a word of the vocabulary. -/
  | known (word : String)
  /-- Asks for the arrays of an element. -/
  | arrayOf (element : Mask)
  /-- Asks for the class of a written name, with or without `null`. -/
  | nominal (text : String) (allowNull : Bool)
  | union (a b : Mask)
  | kindPart (m : Mask)

namespace Request

/-- The masks that a request is given. -/
def inputs : Request → List Mask
  | resolve _ _ _ => []
  | resolveAll _ _ _ => []
  | resolveText _ _ => []
  | known _ => []
  | arrayOf element => [element]
  | nominal _ _ => []
  | union a b => [a, b]
  | kindPart m => [m]

/-- The mask that a request is answered with, and the registry afterwards. -/
def run : Request → Registry → Mask × Registry
  | resolve scope fullyQualified text, r => TypeExpr.resolve scope fullyQualified text r
  | resolveAll scope fullyQualified texts, r => TypeExpr.resolveAll scope fullyQualified texts r
  | resolveText scope text, r => TypeExpr.resolveText scope text r
  | known word, r => (Keyword.maskOf word, r)
  | arrayOf element, r => r.arrayOf element
  | nominal text allowNull, r => r.nominalMask (.parse text) allowNull
  | union a b, r => (a ∪ b, r)
  | kindPart m, r => (m.kindPart, r)

end Request

/-- A registry with the masks that have been obtained in it. -/
structure Context where
  registry : Registry
  masks : List Mask

namespace Context

/-- The context in which nothing has happened yet. -/
def empty : Context where
  registry := .empty
  masks := []

/-- The context after an operation on its registry has answered. -/
def obtain (c : Context) (answer : Mask × Registry) : Context where
  registry := answer.2
  masks := answer.1 :: c.masks

/-- The context after a request. -/
def answer (c : Context) (q : Request) : Context :=
  c.obtain (q.run c.registry)

end Context

/-- The contexts in use. -/
abbrev Session := List Context

namespace Session

/-- One operation on the contexts of a session. Two contexts that take part in one operation are
different places of the session, though one may be a copy of the other. -/
inductive Step : Session → Session → Prop where
  | create (s : Session) : Step s (s ++ [.empty])
  | clone {s : Session} {c : Context} (hc : c ∈ s) : Step s (s ++ [c])
  | request {s : Session} {i : Nat} {c : Context} {q : Request} (hc : s[i]? = some c)
      (hq : ∀ m ∈ q.inputs, m ∈ c.masks) : Step s (s.set i (c.answer q))
  | transfer {s : Session} {i j : Nat} {target source : Context} {m : Mask}
      {answer : Mask × Registry} (hne : i ≠ j) (htarget : s[i]? = some target)
      (hsource : s[j]? = some source) (hm : m ∈ source.masks)
      (h : target.registry.transfer source.registry m = .ok answer) :
      Step s (s.set i (target.obtain answer))
  | resolveAndTransfer {s : Session} {i j : Nat} {target source : Context} {scope : Option Scope}
      {fullyQualified : Bool} {texts : List String} {m : Mask} {target' source' : Registry}
      (hne : i ≠ j) (htarget : s[i]? = some target) (hsource : s[j]? = some source)
      (h : target.registry.resolveAndTransfer source.registry scope fullyQualified texts =
        .ok (m, target', source')) :
      Step s ((s.set i (target.obtain (m, target'))).set j { source with registry := source' })

/-- Any number of operations, one after the other. -/
inductive Steps (s : Session) : Session → Prop where
  | refl : Steps s s
  | tail {s' s'' : Session} (h : Steps s s') (hstep : Step s' s'') : Steps s s''

/-- A session that operations lead to when no context exists at first. -/
def Reachable (s : Session) : Prop :=
  Steps [] s

end Session

namespace Context

/-- A context of a reachable session. -/
def Reachable (c : Context) : Prop :=
  ∃ s : Session, s.Reachable ∧ c ∈ s

theorem Reachable.empty : Context.empty.Reachable :=
  ⟨_, .tail .refl (.create []), List.mem_singleton_self _⟩

/-- A reachable context stays reachable when it answers a request. -/
theorem Reachable.answer {c : Context} (h : c.Reachable) {q : Request}
    (hq : ∀ m ∈ q.inputs, m ∈ c.masks) : (c.answer q).Reachable := by
  obtain ⟨s, hs, hc⟩ := h
  obtain ⟨i, hlt, hi⟩ := List.mem_iff_getElem.mp hc
  have hat : s[i]? = some c := List.getElem?_eq_some_iff.mpr ⟨hlt, hi⟩
  exact ⟨_, hs.tail (.request hat hq), List.mem_set hlt _⟩

/-- The context in which one annotation has been read, outside of any scope. -/
def reading (text : String) : Context :=
  Context.empty.answer (.resolve none false text)

theorem Reachable.reading (text : String) : (reading text).Reachable :=
  Reachable.empty.answer fun _ hm => absurd hm List.not_mem_nil

end Context

end PhpTypes
