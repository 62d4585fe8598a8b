import LiterateMath.Proofs.Closure

/-! Where the meaning of an expression comes from: evaluating it and condensing it depend on what
the environment holds under the names that it mentions, and on nothing else there. The body of a
function that is called runs in an environment of its own. -/
namespace LiterateMath

structure Environment.SameAt (name : Name) (a b : Environment) : Prop
    extends Environment.AlikeAt name a b where
  declarations : a.declarations.find? name = b.declarations.find? name

namespace Environment.SameAt

variable {name : Name} {a b c : Environment}

theorem refl (name : Name) (a : Environment) : SameAt name a a := ⟨⟨rfl, rfl⟩, rfl⟩

theorem symm (same : SameAt name a b) : SameAt name b a :=
  ⟨⟨same.values.symm, same.definitions.symm⟩, same.declarations.symm⟩

theorem trans (first : SameAt name a b) (second : SameAt name b c) : SameAt name a c :=
  ⟨⟨first.values.trans second.values, first.definitions.trans second.definitions⟩,
    first.declarations.trans second.declarations⟩

end Environment.SameAt

section Values

variable {a b : Environment} {eval eval' : Expr → Outcome Number} {e : Expr}

theorem argumentLocal (alike : ∀ name ∈ e.mentioned, Environment.AlikeAt name a b)
    (value : eval e = eval' e) :
    Agree False False Argument.Alike (a.argument eval e) (b.argument eval' e) := by
  have agree : Agree False False Eq (eval e) (eval' e) := value ▸ .refl (fun _ => rfl) _
  cases e with
  | lookup name place =>
      have same := alike name List.mem_cons_self
      cases names : a.namesFunction name with
      | true =>
          obtain ⟨⟨d, found⟩, noValue⟩ := Environment.namesFunctionIff.mp names
          rw [Environment.argumentByName _ place found noValue, Environment.argumentByName _ place
            (same.definitions ▸ found) (same.values ▸ noValue)]
          exact .ok (.function rfl)
      | false =>
          exact valuesAgreeAsArguments (Environment.functionArgumentNone place names)
            (Environment.functionArgumentNone place (same.namesFunction ▸ names)) agree
  | _ => exact valuesAgreeAsArguments rfl rfl agree

theorem evaluateLocal (limit : Nat) (e : Expr)
    (alike : ∀ name ∈ e.mentioned, Environment.AlikeAt name a b) :
    evaluate limit a e = evaluate limit b e := by
  induction limit generalizing e with
  | zero => rfl
  | succ limit ih =>
      cases e with
      | literal value place => rfl
      | lookup name place =>
          simp only [evaluate, Environment.lookupVariable, (alike name List.mem_cons_self).values]
      | unary op arg place => simp only [evaluate, ih arg alike]
      | binary op lhs rhs place =>
          simp only [evaluate,
            ih lhs fun name member => alike name (List.mem_append_left _ member),
            ih rhs fun name member => alike name (List.mem_append_right _ member)]
      | conditional condition ifTrue ifFalse place =>
          have inCondition := ih condition fun name member =>
            alike name (List.mem_append_left _ (List.mem_append_left _ member))
          have inTrue := ih ifTrue fun name member =>
            alike name (List.mem_append_left _ (List.mem_append_right _ member))
          have inFalse := ih ifFalse fun name member =>
            alike name (List.mem_append_right _ member)
          simp only [evaluate, inCondition, inTrue, inFalse]
      | call function args place =>
          have each : List.Forall₂ (fun x y => Agree False False Argument.Alike
              (a.argument (evaluate limit a) x) (b.argument (evaluate limit b) y)) args args := by
            refine List.forall₂_same.mpr fun e given => ?_
            have within : ∀ name ∈ e.mentioned, Environment.AlikeAt name a b := fun name member =>
              alike name (List.mem_cons_of_mem _ (Expr.mentionedWithin.mpr ⟨e, given, member⟩))
            exact argumentLocal within (ih e within)
          have calls := callAgree (alike function List.mem_cons_self).definitions place place
            (.inl rfl) each fun same e => evaluateAlike same limit e
          exact calls.same False.elim False.elim

end Values

section Bodies

theorem mentionsOnly {as bs cs ds : List Name} (first : as ⊆ cs) (second : bs ⊆ ds) :
    as ++ bs ⊆ cs ++ ds :=
  fun _ member => List.mem_append.mpr ((List.mem_append.mp member).imp (@first _) (@second _))

theorem partsMention {args : List Expr} {parts : List (Expr × Captures)}
    (each : List.Forall₂ (fun e part => part.1.mentioned ⊆ e.mentioned) args parts) :
    Expr.mentionedIn (parts.map Prod.fst) ⊆ Expr.mentionedIn args := by
  induction each with
  | nil => exact List.Subset.refl _
  | cons first _ ih => exact mentionsOnly first ih

theorem condenseMentions {s : Scope} {limit : Nat} {e body : Expr} {captures : Captures}
    (ok : condense s limit e = .ok (body, captures)) : body.mentioned ⊆ e.mentioned := by
  refine Scope.condenseInduction (motive := fun _ e body _ => body.mentioned ⊆ e.mentioned)
    ?literal ?localName ?functionName ?numberName ?unary ?binary ?conditional ?localCall
    ?settledCall ?pendingCall ok
  case literal => exact fun _ _ _ => List.Subset.refl _
  case localName => exact fun _ _ _ _ => List.Subset.refl _
  case functionName => exact fun _ _ _ _ _ _ _ => List.Subset.refl _
  case numberName => exact fun _ _ _ _ _ _ _ => List.nil_subset _
  case unary => exact fun _ _ _ _ _ _ inside => inside
  case binary => exact fun _ _ _ _ _ _ _ _ _ left right => mentionsOnly left right
  case conditional =>
    exact fun _ _ _ _ _ _ _ _ _ _ _ condition ifTrue ifFalse =>
      mentionsOnly (mentionsOnly condition ifTrue) ifFalse
  case localCall =>
    exact fun _ function _ _ _ _ each => List.cons_subset_cons function (partsMention each)
  case settledCall => exact fun _ _ _ _ _ _ _ _ _ _ => List.nil_subset _
  case pendingCall =>
    exact fun _ function _ _ _ _ _ each _ _ => List.cons_subset_cons function (partsMention each)

theorem condenseArgumentsSame {f g : Expr → Outcome (Expr × Captures)} {args : List Expr}
    (same : ∀ e ∈ args, f e = g e) : condenseArguments f args = condenseArguments g args := by
  induction args with
  | nil => rfl
  | cons e rest ih =>
      simp only [condenseArguments, same e List.mem_cons_self,
        ih fun e member => same e (List.mem_cons_of_mem _ member)]

variable {a b : Environment}

theorem snapshotLocal {name : Name} (same : Environment.SameAt name a b) :
    a.snapshot name = b.snapshot name := by
  simp only [Environment.snapshot, Environment.lookupFunction, same.declarations,
    same.definitions]

theorem condenseLocal (locals : List Name) (limit : Nat) (e : Expr)
    (same : ∀ name ∈ e.mentioned, Environment.SameAt name a b) :
    condense ⟨a, locals⟩ limit e = condense ⟨b, locals⟩ limit e := by
  induction limit generalizing e with
  | zero => rfl
  | succ limit ih =>
      simp only [condense] at ih
      cases e with
      | literal value place => rfl
      | lookup name place =>
          have here := same name List.mem_cons_self
          have value : a.lookupVariable name = b.lookupVariable name := by
            simp only [Environment.lookupVariable, here.values]
          simp only [condense, condenseMaking, Scope.isLocal, Scope.capture, snapshotLocal here, value]
          congr 2
          rw [here.namesFunction]
      | unary op arg place => simp only [condense, condenseMaking, ih arg same]
      | binary op lhs rhs place =>
          simp only [condense, condenseMaking,
            ih lhs fun name member => same name (List.mem_append_left _ member),
            ih rhs fun name member => same name (List.mem_append_right _ member)]
      | conditional condition ifTrue ifFalse place =>
          have inCondition := ih condition fun name member =>
            same name (List.mem_append_left _ (List.mem_append_left _ member))
          have inTrue := ih ifTrue fun name member =>
            same name (List.mem_append_left _ (List.mem_append_right _ member))
          have inFalse := ih ifFalse fun name member =>
            same name (List.mem_append_right _ member)
          simp only [condense, condenseMaking, inCondition, inTrue, inFalse]
      | call function args place =>
          have within : ∀ e ∈ args, ∀ name ∈ e.mentioned, Environment.SameAt name a b :=
            fun e given name member =>
              same name (List.mem_cons_of_mem _ (Expr.mentionedWithin.mpr ⟨e, given, member⟩))
          have each := condenseArgumentsSame fun e given => ih e (within e given)
          have captured :
              Scope.capture ⟨a, locals⟩ function = Scope.capture ⟨b, locals⟩ function := by
            simp only [Scope.capture, snapshotLocal (same function List.mem_cons_self)]
          have settled : Scope.settled ⟨a, locals⟩ = Scope.settled ⟨b, locals⟩ := by
            funext e
            cases e <;> rfl
          simp only [condense, condenseMaking, Scope.isLocal, each, captured, settled]
          cases inArgs : condenseArguments
              (condenseMaking (fun limit => evaluate limit b) ⟨b, locals⟩ limit) args with
          | error fault => rfl
          | ok result =>
              obtain ⟨bodies, captures⟩ := result
              obtain ⟨parts, each, rfl, -⟩ :=
                condenseArgumentsParts (f := condense ⟨b, locals⟩ limit) inArgs
              have mentions := partsMention (each.imp fun _ _ => condenseMentions)
              have made := evaluateLocal limit (.call function (parts.map Prod.fst) place)
                fun name member =>
                  (same name (List.cons_subset_cons function mentions member)).toAlikeAt
              simp only [bindOk, made]

end Bodies

end LiterateMath
