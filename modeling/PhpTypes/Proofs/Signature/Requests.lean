import PhpTypes.Signature
import PhpTypes.Proofs.Session.Soundness

/-!
# Signatures as requests

To resolve the signature of a routine means to make one request for each parameter and one for the
result (`Signature.resolve_eq_runAll`). None of these requests is given a mask, so whatever holds of
requests to a well-formed registry holds of signatures (`Signature.resolve_sound`).
-/

namespace PhpTypes

/-! ## Requests one after the other -/

namespace Request

/-- A request without inputs meets every condition on its inputs. -/
theorem forall_mem_inputs {q : Request} (hq : q.inputs = []) {P : Mask → Prop} :
    ∀ m ∈ q.inputs, P m := by
  rw [hq]
  exact fun m hm => absurd hm List.not_mem_nil

/-- The masks that requests are answered with, one after the other, and the registry afterwards. -/
def runAll : List Request → Registry → List Mask × Registry
  | [], r => ([], r)
  | q :: rest, r =>
    let (mask, r) := q.run r
    let (masks, r) := runAll rest r
    (mask :: masks, r)

/-- Requests may be made in two goes. -/
theorem runAll_append (qs rest : List Request) (r : Registry) :
    runAll (qs ++ rest) r =
      ((runAll qs r).1 ++ (runAll rest (runAll qs r).2).1, (runAll rest (runAll qs r).2).2) := by
  induction qs generalizing r with
  | nil => rfl
  | cons q qs ih =>
    simp only [List.cons_append, runAll]
    rw [ih]

/-- Requests that are given no masks keep a registry well-formed and are answered with masks of the
registry. -/
theorem runAll_sound {qs : List Request} {r : Registry} (h : r.WellFormed)
    (hqs : ∀ q ∈ qs, q.inputs = []) :
    (runAll qs r).2.WellFormed ∧ r.Extends (runAll qs r).2 ∧
      ∀ m ∈ (runAll qs r).1, (runAll qs r).2.Owns m := by
  induction qs generalizing r with
  | nil => exact ⟨h, .refl r, fun m hm => absurd hm List.not_mem_nil⟩
  | cons q rest ih =>
    have hfirst := q.run_yields h (forall_mem_inputs (hqs q List.mem_cons_self))
    obtain ⟨hwf, hext, howns⟩ :=
      ih hfirst.wellFormed fun p hp => hqs p (List.mem_cons_of_mem q hp)
    refine ⟨hwf, hfirst.grows.trans hext, fun m hm => ?_⟩
    rcases List.mem_cons.mp hm with rfl | hm
    · exact hfirst.owns.extend hext
    · exact howns m hm

end Request

namespace Signature

/-- The masks of a signature: those of its parameters in order, then that of the result. -/
def masks (s : Signature) : List Mask :=
  s.parameters.map (·.mask) ++ [s.returns]

/-! ## The requests of a routine -/

/-- The request for a native hint. Without a hint, no annotations are read. -/
def hintRequest (scope : Scope) : Option String → Request
  | some hint => .resolveText (some scope) hint
  | none => .resolveAll (some scope) false []

/-- The request for the parameter at a position. -/
def parameterRequest (routine : Routine) (index : Nat) (parameter : Parameter) : Request :=
  let name := String.ofList (Text.dropLead ['$'] parameter.name.toList)
  match (DocComment.findParam routine.doc index name).filter (·.type.isSome) with
  | some tag => .resolveAll (some routine.scope) false tag.alternatives
  | none => hintRequest routine.scope parameter.hint

/-- The requests for parameters from a position on. -/
def parameterRequests (routine : Routine) : Nat → List Parameter → List Request
  | _, [] => []
  | index, parameter :: rest =>
    parameterRequest routine index parameter :: parameterRequests routine (index + 1) rest

/-- The request for the result. -/
def returnRequest (routine : Routine) : Request :=
  match routine.doc.bind DocComment.returnType? with
  | some text => .resolveText (some routine.scope) text
  | none => hintRequest routine.scope routine.returnHint

/-- The requests by which the signature of a routine is resolved. -/
def requests (routine : Routine) : List Request :=
  parameterRequests routine 0 routine.parameters ++ [returnRequest routine]

/-- A native hint is read without any mask as input. -/
theorem inputs_hintRequest (scope : Scope) (hint : Option String) :
    (hintRequest scope hint).inputs = [] := by
  cases hint <;> rfl

/-- A parameter is resolved without any mask as input. -/
theorem inputs_parameterRequest (routine : Routine) (index : Nat) (parameter : Parameter) :
    (parameterRequest routine index parameter).inputs = [] := by
  unfold parameterRequest
  dsimp only
  split
  · rfl
  · exact inputs_hintRequest _ _

/-- None of the requests for parameters has a mask as input. -/
theorem inputs_of_mem_parameterRequests {routine : Routine} {parameters : List Parameter}
    {index : Nat} {q : Request} (hq : q ∈ parameterRequests routine index parameters) :
    q.inputs = [] := by
  induction parameters generalizing index with
  | nil => exact absurd hq List.not_mem_nil
  | cons parameter rest ih =>
    rcases List.mem_cons.mp hq with rfl | hq
    · exact inputs_parameterRequest routine index parameter
    · exact ih hq

/-- The result is resolved without any mask as input. -/
theorem inputs_returnRequest (routine : Routine) : (returnRequest routine).inputs = [] := by
  unfold returnRequest
  split
  · rfl
  · exact inputs_hintRequest _ _

/-- The requests of a routine are given no masks. -/
theorem inputs_of_mem_requests {routine : Routine} {q : Request} (hq : q ∈ requests routine) :
    q.inputs = [] := by
  rcases List.mem_append.mp hq with hq | hq
  · exact inputs_of_mem_parameterRequests hq
  · rw [List.mem_singleton.mp hq]
    exact inputs_returnRequest routine

/-! ## Resolving by requests -/

/-- Resolving a hint is making its request. -/
theorem resolveHint_eq (scope : Scope) (hint : Option String) (r : Registry) :
    ((resolveHint scope hint r).1.1, (resolveHint scope hint r).2) =
      (hintRequest scope hint).run r := by
  cases hint with
  | none => rfl
  | some hint => simp only [resolveHint, hintRequest, Request.run]

/-- Resolving a parameter is making its request. -/
theorem resolveParameter_eq (routine : Routine) (index : Nat) (parameter : Parameter)
    (r : Registry) :
    ((resolveParameter routine index parameter r).1.mask,
        (resolveParameter routine index parameter r).2) =
      (parameterRequest routine index parameter).run r := by
  simp only [resolveParameter, parameterRequest]
  cases (DocComment.findParam routine.doc index _).filter (·.type.isSome) with
  | some tag => simp only [Request.run]
  | none => exact resolveHint_eq routine.scope parameter.hint r

/-- Resolving parameters in order is making their requests in order. -/
theorem resolveParameters_eq (routine : Routine) (index : Nat) (parameters : List Parameter)
    (r : Registry) :
    ((resolveParameters routine index parameters r).1.map (·.mask),
        (resolveParameters routine index parameters r).2) =
      Request.runAll (parameterRequests routine index parameters) r := by
  induction parameters generalizing index r with
  | nil => rfl
  | cons parameter rest ih =>
    have hfirst := resolveParameter_eq routine index parameter r
    simp only [parameterRequests, Request.runAll, ← hfirst, ← ih]
    rfl

/-- Resolving the result is making its request. -/
theorem resolveReturn_eq (routine : Routine) (r : Registry) :
    ((resolveReturn routine r).1.1, (resolveReturn routine r).2) =
      (returnRequest routine).run r := by
  simp only [resolveReturn, returnRequest]
  cases routine.doc.bind DocComment.returnType? with
  | some text => simp only [Request.run]
  | none => exact resolveHint_eq routine.scope routine.returnHint r

/-- Resolving a signature is making the requests of the routine. -/
theorem resolve_eq_runAll (routine : Routine) (r : Registry) :
    ((resolve routine r).1.masks, (resolve routine r).2) =
      Request.runAll (requests routine) r := by
  have hparameters := resolveParameters_eq routine 0 routine.parameters r
  rw [requests, Request.runAll_append, ← hparameters]
  simp only [Request.runAll, ← resolveReturn_eq]
  rfl

/-- The signature of a routine consists of masks of the registry it was resolved in. -/
theorem resolve_sound {r : Registry} (h : r.WellFormed) (routine : Routine) :
    (resolve routine r).2.WellFormed ∧ r.Extends (resolve routine r).2 ∧
      ∀ m ∈ (resolve routine r).1.masks, (resolve routine r).2.Owns m := by
  have hsound := Request.runAll_sound h fun _ hq => @inputs_of_mem_requests routine _ hq
  rwa [← resolve_eq_runAll] at hsound

end Signature

end PhpTypes
