import PhpTypes.Proofs.Session.Reading
import PhpTypes.Proofs.Signature.Requests

/-!
# Answers that stay

A registry settles a request if it answers it without adding anything. Once a request has been
answered, every later state of the registry settles it with the same mask
(`Request.settles_of_extends`).

To read several annotations is to read each of them, so with one request others may be answered as
well. `Request.answers` lists them all.
-/

namespace PhpTypes

/-- The registry answers the request with the mask, and nothing is added. -/
structure Registry.Settles (r : Registry) (answered : Request × Mask) : Prop where
  owns : ∀ m ∈ answered.1.inputs, r.Owns m
  run_eq : answered.1.run r = (answered.2, r)

namespace Request

/-! ## The requests that are answered with a request -/

/-- The readings of annotations, one after the other, with their masks. -/
def readings (scope : Option Scope) (fullyQualified : Bool) :
    List String → Registry → List (Request × Mask)
  | [], _ => []
  | text :: rest, r =>
    let (mask, r) := TypeExpr.resolve scope fullyQualified text r
    (.resolve scope fullyQualified text, mask) :: readings scope fullyQualified rest r

/-- The request and every reading that it consists of, with their masks. -/
def answers (q : Request) (r : Registry) : List (Request × Mask) :=
  (q, (q.run r).1) ::
    match q with
    | resolveAll scope fullyQualified texts => readings scope fullyQualified texts r
    | resolveText scope text => readings scope false (TypeExpr.splitAlternatives text) r
    | _ => []

/-- The answers to requests that are made one after the other. -/
def answersAll : List Request → Registry → List (Request × Mask)
  | [], _ => []
  | q :: rest, r => q.answers r ++ answersAll rest (q.run r).2

/-! ## Answers in later states -/

variable {r r' : Registry}

/-- A request that was answered is settled from then on. -/
theorem settles_of_extends (h : r.WellFormed) (h' : r'.WellFormed) {q : Request}
    (hq : ∀ m ∈ q.inputs, r.Owns m) (hext : (q.run r).2.Extends r') :
    r'.Settles (q, (q.run r).1) where
  owns m hm := (hq m hm).extend ((q.run_yields h hq).grows.trans hext)
  run_eq := run_again h h' hq hext

/-- Annotations that were read one after the other are settled from then on. -/
theorem settles_of_mem_readings (h : r.WellFormed) (h' : r'.WellFormed) {scope : Option Scope}
    {fullyQualified : Bool} {texts : List String}
    (hext : (TypeExpr.resolveAll scope fullyQualified texts r).2.Extends r')
    {answered : Request × Mask} (hmem : answered ∈ readings scope fullyQualified texts r) :
    r'.Settles answered := by
  induction texts generalizing r with
  | nil => exact absurd hmem List.not_mem_nil
  | cons text rest ih =>
    have hfirst : r.Yields (TypeExpr.annotationType scope fullyQualified text)
        (TypeExpr.resolve scope fullyQualified text r) := TypeExpr.resolve_yields h text
    rw [TypeExpr.resolveAll_cons] at hext
    rcases List.mem_cons.mp hmem with rfl | hmem
    · have hrest : Registry.Yields (TypeExpr.resolve scope fullyQualified text r).2
          (TypeExpr.annotationsType scope fullyQualified rest)
          (TypeExpr.resolveAll scope fullyQualified rest _) :=
        TypeExpr.resolveAll_yields hfirst.wellFormed rest
      have hlater : ((resolve scope fullyQualified text).run r).2.Extends r' :=
        hrest.grows.trans hext
      exact settles_of_extends h h' (forall_mem_inputs rfl) hlater
    · exact ih hfirst.wellFormed hext hmem

/-- Everything that was answered with a request is settled from then on. -/
theorem settles_of_mem_answers (h : r.WellFormed) (h' : r'.WellFormed) {q : Request}
    (hq : ∀ m ∈ q.inputs, r.Owns m) (hext : (q.run r).2.Extends r')
    {answered : Request × Mask} (hmem : answered ∈ q.answers r) : r'.Settles answered := by
  rcases List.mem_cons.mp hmem with rfl | hmem
  · exact settles_of_extends h h' hq hext
  · cases q with
    | resolveAll scope fullyQualified texts => exact settles_of_mem_readings h h' hext hmem
    | resolveText scope text => exact settles_of_mem_readings h h' hext hmem
    | _ => exact absurd hmem List.not_mem_nil

/-- Everything that was answered with several requests is settled from then on. -/
theorem settles_of_mem_answersAll (h : r.WellFormed) (h' : r'.WellFormed) {qs : List Request}
    (hqs : ∀ q ∈ qs, q.inputs = []) (hext : (runAll qs r).2.Extends r')
    {answered : Request × Mask} (hmem : answered ∈ answersAll qs r) : r'.Settles answered := by
  induction qs generalizing r with
  | nil => exact absurd hmem List.not_mem_nil
  | cons q rest ih =>
    have hinputs : ∀ m ∈ q.inputs, r.Owns m := forall_mem_inputs (hqs q List.mem_cons_self)
    have hfirst := (q.run_yields h hinputs).wellFormed
    have hothers : ∀ p ∈ rest, p.inputs = [] := fun p hp => hqs p (List.mem_cons_of_mem q hp)
    rcases List.mem_append.mp hmem with hmem | hmem
    · have hrest := (runAll_sound hfirst hothers).2.1
      exact settles_of_mem_answers h h' hinputs (hrest.trans hext) hmem
    · exact ih hfirst hothers hext hmem

end Request

/-- What is settled stays settled when the registry grows. -/
theorem Registry.Settles.extend {r r' : Registry} {answered : Request × Mask}
    (hsettles : r.Settles answered) (h : r.WellFormed) (h' : r'.WellFormed)
    (hext : r.Extends r') : r'.Settles answered := by
  have hlater : (answered.1.run r).2.Extends r' := by
    rw [hsettles.run_eq]
    exact hext
  have hagain := Request.settles_of_extends h h' hsettles.owns hlater
  rwa [hsettles.run_eq] at hagain

end PhpTypes
