import LiterateMath.Proofs.Environment

/-! Evaluation depends on what names mean and on nothing else of an environment, and its limit
shows only where it is reached. A call is looked at in one piece: its function, its arguments,
and the body in the environment that the call builds. -/
namespace LiterateMath

namespace Environment

theorem lookupFunctionOk {env : Environment} {name : Name} {d : FunctionDefinition} :
    env.lookupFunction name = .ok d ↔ env.definitions.find? name = some d := by
  unfold lookupFunction
  cases env.definitions.find? name <;> simp

theorem functionArgumentLookup (env : Environment) (name : Name) (place : Option Span) :
    env.functionArgument? (.lookup name place) =
      if env.namesFunction name then
        (env.definitions.find? name).map fun d => (env.declarations.find? name, d)
      else none := by
  simp only [functionArgument?, snapshot, lookupFunction]
  cases env.definitions.find? name <;> rfl

theorem argumentByValue {env : Environment} {e : Expr} (eval : Expr → Outcome Number)
    (plain : env.functionArgument? e = none) :
    env.argument eval e = do return .number (← eval e) := by
  simp only [argument, plain]

theorem argumentByName {env : Environment} {name : Name} {d : FunctionDefinition}
    (eval : Expr → Outcome Number) (place : Option Span)
    (found : env.definitions.find? name = some d) (noValue : env.values.find? name = none) :
    env.argument eval (.lookup name place) =
      .ok (.function (env.declarations.find? name, d)) := by
  have names : env.namesFunction name = true := by
    simp [namesFunction, Table.contains, found, noValue]
  simp [argument, functionArgumentLookup, names, found]

theorem functionArgumentNone {env : Environment} {name : Name} (place : Option Span)
    (unnamed : env.namesFunction name = false) :
    env.functionArgument? (.lookup name place) = none := by
  simp [functionArgumentLookup, unnamed]

theorem namesFunctionIff {env : Environment} {name : Name} :
    env.namesFunction name = true ↔
      (∃ d, env.definitions.find? name = some d) ∧ env.values.find? name = none := by
  simp [namesFunction, Table.contains, Option.isSome_iff_exists]

theorem Alike.functionArgument {a b : Environment} (alike : Alike a b) (e : Expr) :
    (a.functionArgument? e).map Prod.snd = (b.functionArgument? e).map Prod.snd := by
  cases e with
  | lookup name place =>
    rw [functionArgumentLookup, functionArgumentLookup, (alike name).namesFunction,
      (alike name).definitions]
    cases b.namesFunction name <;> cases b.definitions.find? name <;> rfl
  | _ => rfl

theorem Alike.argument {a b : Environment} (alike : Alike a b) {left right : Prop}
    {eval eval' : Expr → Outcome Number} {e : Expr}
    (value : Agree left right Eq (eval e) (eval' e)) :
    Agree left right Argument.Alike (a.argument eval e) (b.argument eval' e) := by
  have named := alike.functionArgument e
  unfold Environment.argument
  cases ha : a.functionArgument? e with
  | some s =>
    cases hb : b.functionArgument? e with
    | some t =>
      have same : s.2 = t.2 := by simpa [ha, hb] using named
      exact .ok (.function same)
    | none => simp [ha, hb] at named
  | none =>
    cases hb : b.functionArgument? e with
    | some t => simp [ha, hb] at named
    | none =>
      refine value.bind fun x y same => ?_
      subst y
      exact .ok (.number x)

end Environment

theorem evaluateCall (limit : Nat) (env : Environment) (function : Name) (args : List Expr)
    (place : Option Span) :
    evaluate (limit + 1) env (.call function args place) = (do
      let callee ← env.lookupFunction function
      if args.length ≠ callee.params.length then
        .error (.mismatch (.argumentCount function callee.params.length args.length))
      else
        let found ← args.mapM (env.argument (evaluate limit env))
        evaluate limit (callee.entered (env.declarations.find? function) found) callee.body) := by
  rw [evaluate]
  cases env.lookupFunction function with
  | error fault => rfl
  | ok callee =>
    simp only [bindOk]
    split
    · rfl
    · rename_i oneEach
      rw [Environment.bindArgumentsAll _ _ _ _ _ (not_not.mp oneEach)]
      cases args.mapM (env.argument (evaluate limit env)) <;> rfl

theorem callAgree {a b : Environment} {left right : Prop} {f g : Name}
    (same : a.definitions.find? f = b.definitions.find? g) {xs ys : List Expr} {m n : Nat}
    (p q : Option Span)
    (shown : f = g ∨ ∃ d, b.definitions.find? g = some d ∧ ys.length = d.params.length)
    (arguments : List.Forall₂ (fun x y => Agree left right Argument.Alike
      (a.argument (evaluate m a) x) (b.argument (evaluate n b) y)) xs ys)
    (bodies : ∀ {inner outer : Environment}, inner.Alike outer → ∀ e,
      Agree left right Eq (evaluate m inner e) (evaluate n outer e)) :
    Agree left right Eq (evaluate (m + 1) a (.call f xs p))
      (evaluate (n + 1) b (.call g ys q)) := by
  have entered : ∀ callee : FunctionDefinition, Agree left right Eq
      (xs.mapM (a.argument (evaluate m a)) >>= fun found =>
        evaluate m (callee.entered (a.declarations.find? f) found) callee.body)
      (ys.mapM (b.argument (evaluate n b)) >>= fun found =>
        evaluate n (callee.entered (b.declarations.find? g) found) callee.body) := by
    intro callee
    refine (Agree.mapM arguments).bind fun found found' alike => ?_
    exact bodies (callee.enteredAlike _ _ alike) callee.body
  rw [evaluateCall, evaluateCall]
  simp only [Environment.lookupFunction, same, arguments.length_eq]
  rcases shown with rfl | ⟨callee, found, fitting⟩
  · cases b.definitions.find? f with
    | none => exact .error _
    | some callee =>
      simp only [bindOk]
      split
      · exact .error _
      · exact entered callee
  · simp only [found, bindOk, fitting, ne_eq, not_true_eq_false, if_false]
    exact entered callee

theorem evaluateAgree {a b : Environment} (alike : a.Alike b) (m n : Nat) (e : Expr) :
    Agree (m < n) (n < m) Eq (evaluate m a e) (evaluate n b e) := by
  induction m generalizing n a b e with
  | zero =>
    cases n with
    | zero => exact .error _
    | succ n => exact .deepLeft (by omega) _
  | succ m ih =>
    cases n with
    | zero => exact .deepRight (by omega) _
    | succ n =>
      have below : ∀ {a b : Environment}, a.Alike b → ∀ e,
          Agree (m + 1 < n + 1) (n + 1 < m + 1) Eq (evaluate m a e) (evaluate n b e) :=
        fun alike e => (ih alike n e).excuse (by omega) (by omega)
      cases e with
      | literal value place => exact .ok rfl
      | lookup name place =>
        simp only [evaluate, Environment.lookupVariable, (alike name).values]
        exact .refl (fun _ => rfl) _
      | unary op arg place =>
        simp only [evaluate]
        refine (below alike arg).bind fun x y same => ?_
        subst y
        exact .refl (fun _ => rfl) _
      | binary op lhs rhs place =>
        simp only [evaluate]
        refine (below alike lhs).bind fun x y same => ?_
        subst y
        refine (below alike rhs).bind fun x' y' same => ?_
        subst y'
        exact .refl (fun _ => rfl) _
      | conditional condition ifTrue ifFalse place =>
        simp only [evaluate]
        refine (below alike condition).bind fun x y same => ?_
        subst y
        have tested : Agree (m + 1 < n + 1) (n + 1 < m + 1) Eq (conditionHolds x)
            (conditionHolds x) := .refl (fun _ => rfl) _
        refine tested.bind ?_
        rintro holds _ rfl
        cases holds with
        | true => exact below alike ifTrue
        | false => exact below alike ifFalse
      | call function args place =>
        refine callAgree (alike function).definitions place place (.inl rfl) ?_ below
        exact List.forall₂_same.mpr fun e _ => alike.argument (below alike e)

theorem evaluateAlike {a b : Environment} (alike : a.Alike b) (limit : Nat) (e : Expr) :
    Agree False False Eq (evaluate limit a e) (evaluate limit b e) :=
  (evaluateAgree alike limit limit e).excuse (Nat.lt_irrefl limit) (Nat.lt_irrefl limit)

end LiterateMath
