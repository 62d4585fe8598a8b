import LiterateMath.Proofs.Condensing
import LiterateMath.Proofs.Session

/-! Condensing keeps the meaning of a body. The condensed body runs where only the captures, the
function and its arguments are known; the original one runs in the environment of the definition
with these bound over it. The two environments agree on local names, the second agrees with the
environment of the definition on all others, and the first holds what was captured. -/
namespace LiterateMath

def Environment.without (env : Environment) (names : List Name) : Environment :=
  { env with
    values := List.filter (fun entry => !names.contains entry.1) env.values
    definitions := List.filter (fun entry => !names.contains entry.1) env.definitions }

def FunctionDefinition.boundOver (d : FunctionDefinition) (env : Environment)
    (known : Option FunctionDeclaration) (arguments : List Argument) : Environment :=
  ((env.without (d.name :: d.params)).adopt d.name (known, d)).bindAll (d.params.zip arguments)

def Expr.isLookup : Expr → Bool
  | lookup .. => true
  | _ => false

theorem functionArgumentOther {e : Expr} (env : Environment) (plain : e.isLookup = false) :
    env.functionArgument? e = none := by
  cases e with
  | lookup name place => cases plain
  | _ => rfl

theorem valuesAgreeAsArguments {a b : Environment} {left right : Prop}
    {eval eval' : Expr → Outcome Number} {e e' : Expr} (plain : a.functionArgument? e = none)
    (plain' : b.functionArgument? e' = none) (value : Agree left right Eq (eval e) (eval' e')) :
    Agree left right Argument.Alike (a.argument eval e) (b.argument eval' e') := by
  rw [Environment.argumentByValue eval plain, Environment.argumentByValue eval' plain']
  refine value.bind fun x y same => ?_
  subst y
  exact .ok (.number x)

namespace Scope

def Extends (s : Scope) (outer : Environment) : Prop :=
  ∀ name, s.isLocal name = false → Environment.AlikeAt name outer s.env

structure Fits (s : Scope) (captures : Captures) (inner outer : Environment) : Prop where
  beyond : s.Extends outer
  within (name : Name) (inside : s.isLocal name = true) : Environment.AlikeAt name inner outer
  numberless (name : Name) (outside : s.isLocal name = false) : inner.values.find? name = none
  captured (name : Name) (member : captures.contains name = true) :
    inner.definitions.find? name = s.env.definitions.find? name

variable {s : Scope} {inner outer : Environment}

theorem Fits.fewer {all some : Captures} (fits : s.Fits all inner outer)
    (less : ∀ name, some.contains name = true → all.contains name = true) :
    s.Fits some inner outer where
  beyond := fits.beyond
  within := fits.within
  numberless := fits.numberless
  captured name member := fits.captured name (less name member)

theorem Fits.left {first second : Captures} (fits : s.Fits (first.union second) inner outer) :
    s.Fits first inner outer :=
  fits.fewer fun name member => by simp [containsUnion, member]

theorem Fits.right {first second : Captures} (fits : s.Fits (first.union second) inner outer) :
    s.Fits second inner outer :=
  fits.fewer fun name member => by simp [containsUnion, member]

/-- An expression and what it condenses to come to the same, as values and as arguments of a
call. An argument that is settled comes to the same already where it was condensed. -/
structure Keeps (s : Scope) (e body : Expr) (captures : Captures) : Prop where
  value {inner outer : Environment} (fits : s.Fits captures inner outer) (m n : Nat) :
    Agree True True Eq (evaluate m inner body) (evaluate n outer e)
  argument {inner outer : Environment} (fits : s.Fits captures inner outer) (m n : Nat) :
    Agree True True Argument.Alike (inner.argument (evaluate m inner) body)
      (outer.argument (evaluate n outer) e)
  settled (ready : s.settled body = true) {outer : Environment} (beyond : s.Extends outer)
    (m n : Nat) : Agree True True Argument.Alike (s.env.argument (evaluate m s.env) body)
      (outer.argument (evaluate n outer) e)

variable {e body : Expr} {captures : Captures}

theorem Keeps.ofOperation (plain : e.isLookup = false) (plainBody : body.isLookup = false)
    (unready : s.settled body = false)
    (value : ∀ {inner outer : Environment}, s.Fits captures inner outer → ∀ m n,
      Agree True True Eq (evaluate m inner body) (evaluate n outer e)) :
    s.Keeps e body captures where
  value := value
  argument fits m n := valuesAgreeAsArguments (functionArgumentOther _ plainBody)
    (functionArgumentOther _ plain) (value fits m n)
  settled ready := by rw [unready] at ready; cases ready

theorem Keeps.ofLiteral {v : Number} (place : Option Span)
    (plain : ∀ {outer : Environment}, s.Extends outer → outer.functionArgument? e = none)
    (value : ∀ {outer : Environment}, s.Extends outer → ∀ n,
      Agree True True Eq (.ok v) (evaluate n outer e)) :
    s.Keeps e (.literal v place) captures := by
  have evaluated : ∀ {any outer : Environment}, s.Extends outer → ∀ m n,
      Agree True True Eq (evaluate m any (.literal v place)) (evaluate n outer e) := by
    intro any outer beyond m n
    cases m with
    | zero => exact .deepLeft trivial _
    | succ m => exact value beyond n
  refine ⟨fun fits m n => evaluated fits.beyond m n, fun fits m n => ?_, fun _ _ beyond m n => ?_⟩
  · exact valuesAgreeAsArguments rfl (plain fits.beyond) (evaluated fits.beyond m n)
  · exact valuesAgreeAsArguments rfl (plain beyond) (evaluated beyond m n)

theorem Keeps.ofLocalName {name : Name} (inside : s.isLocal name = true)
    (place : Option Span) : s.Keeps (.lookup name place) (.lookup name place) captures := by
  have value : ∀ {inner outer : Environment}, s.Fits captures inner outer → ∀ m n,
      Agree True True Eq (evaluate m inner (.lookup name place))
        (evaluate n outer (.lookup name place)) := by
    intro inner outer fits m n
    cases m with
    | zero => exact .deepLeft trivial _
    | succ m =>
      cases n with
      | zero => exact .deepRight trivial _
      | succ n =>
        simp only [evaluate, Environment.lookupVariable, (fits.within name inside).values]
        exact .refl (fun _ => rfl) _
  refine ⟨value, fun {inner outer} fits m n => ?_, fun ready => ?_⟩
  · have same := fits.within name inside
    cases names : inner.namesFunction name with
    | true =>
      obtain ⟨⟨d, found⟩, noValue⟩ := Environment.namesFunctionIff.mp names
      rw [Environment.argumentByName _ place found noValue, Environment.argumentByName _ place
        (same.definitions ▸ found) (same.values ▸ noValue)]
      exact .ok (.function rfl)
    | false =>
      exact valuesAgreeAsArguments (Environment.functionArgumentNone place names)
        (Environment.functionArgumentNone place (same.namesFunction ▸ names)) (value fits m n)
  · simp [Scope.settled, inside] at ready

theorem Keeps.ofFunctionName {name : Name} (outside : s.isLocal name = false)
    (names : s.env.namesFunction name = true) (member : captures.contains name = true)
    (place : Option Span) : s.Keeps (.lookup name place) (.lookup name place) captures := by
  obtain ⟨⟨d, found⟩, noValue⟩ := Environment.namesFunctionIff.mp names
  refine ⟨fun {inner outer} fits m n => ?_, fun {inner outer} fits m n => ?_,
    fun _ {outer} beyond m n => ?_⟩
  · cases m with
    | zero => exact .deepLeft trivial _
    | succ m =>
      cases n with
      | zero => exact .deepRight trivial _
      | succ n =>
        simp only [evaluate, Environment.lookupVariable, fits.numberless name outside,
          (fits.beyond name outside).values, noValue]
        exact .error _
  · rw [Environment.argumentByName _ place ((fits.captured name member).trans found)
      (fits.numberless name outside), Environment.argumentByName _ place
      ((fits.beyond name outside).definitions.trans found)
      ((fits.beyond name outside).values.trans noValue)]
    exact .ok (.function rfl)
  · rw [Environment.argumentByName _ place found noValue, Environment.argumentByName _ place
      ((beyond name outside).definitions.trans found)
      ((beyond name outside).values.trans noValue)]
    exact .ok (.function rfl)

theorem Keeps.ofNumberName {name : Name} {v : Number} (outside : s.isLocal name = false)
    (found : s.env.values.find? name = some v) (place : Option Span) :
    s.Keeps (.lookup name place) (.literal v place) captures := by
  refine .ofLiteral place (fun beyond => ?_) fun beyond n => ?_
  · have number := (beyond name outside).values.trans found
    refine Environment.functionArgumentNone place ?_
    simp [Environment.namesFunction, Table.contains, number]
  · cases n with
    | zero => exact .deepRight trivial _
    | succ n =>
      simp only [evaluate, Environment.lookupVariable, (beyond name outside).values, found]
      exact .ok rfl

variable {args : List Expr} {parts : List (Expr × Captures)}

theorem partsAgree (each : List.Forall₂ (fun e part => s.Keeps e part.1 part.2) args parts)
    (fits : s.Fits (capturesOf parts) inner outer) (m n : Nat) :
    List.Forall₂ (fun x y => Agree True True Argument.Alike
      (inner.argument (evaluate m inner) x) (outer.argument (evaluate n outer) y))
      (parts.map Prod.fst) args := by
  induction each with
  | nil => exact .nil
  | cons first rest ih => exact .cons (first.argument fits.left m n) (ih fits.right)

theorem settledPartsAgree
    (each : List.Forall₂ (fun e part => s.Keeps e part.1 part.2) args parts)
    (ready : (parts.map Prod.fst).all s.settled = true) (beyond : s.Extends outer) (m n : Nat) :
    List.Forall₂ (fun x y => Agree True True Argument.Alike
      (s.env.argument (evaluate m s.env) x) (outer.argument (evaluate n outer) y))
      (parts.map Prod.fst) args := by
  induction each with
  | nil => exact .nil
  | cons first rest ih =>
    obtain ⟨head, tail⟩ := Bool.and_eq_true_iff.mp ready
    exact .cons (first.settled head beyond m n) (ih tail)

theorem Keeps.ofCall {function : Name} (place : Option Span)
    (each : List.Forall₂ (fun e part => s.Keeps e part.1 part.2) args parts)
    (within : ∀ {inner outer : Environment}, s.Fits captures inner outer →
      s.Fits (capturesOf parts) inner outer)
    (same : ∀ {inner outer : Environment}, s.Fits captures inner outer →
      inner.definitions.find? function = outer.definitions.find? function) :
    s.Keeps (.call function args place) (.call function (parts.map Prod.fst) place) captures := by
  refine .ofOperation rfl rfl rfl fun fits m n => ?_
  cases m with
  | zero => exact .deepLeft trivial _
  | succ m =>
    cases n with
    | zero => exact .deepRight trivial _
    | succ n =>
      exact callAgree (same fits) place place (.inl rfl) (partsAgree each (within fits) m n)
        fun alike e => (evaluateAgree alike m n e).excuse (fun _ => trivial) (fun _ => trivial)

theorem Keeps.ofSettledCall {limit : Nat} {function : Name} {v : Number} (place : Option Span)
    (outside : s.isLocal function = false)
    (each : List.Forall₂ (fun e part => s.Keeps e part.1 part.2) args parts)
    (ready : (parts.map Prod.fst).all s.settled = true)
    (made : evaluate limit s.env (.call function (parts.map Prod.fst) place) = .ok v) :
    s.Keeps (.call function args place) (.literal v place) captures := by
  refine .ofLiteral place (fun _ => rfl) fun beyond n => ?_
  cases limit with
  | zero => cases made
  | succ limit =>
    cases n with
    | zero => exact .deepRight trivial _
    | succ n =>
      rw [← made]
      exact callAgree (beyond function outside).definitions.symm place place (.inl rfl)
        (settledPartsAgree each ready beyond limit n)
        fun alike e => (evaluateAgree alike limit n e).excuse (fun _ => trivial) (fun _ => trivial)

theorem condenseKeeps {limit : Nat} (ok : condense s limit e = .ok (body, captures)) :
    s.Keeps e body captures := by
  refine condenseInduction (motive := fun _ => s.Keeps) ?literal ?localName ?functionName
    ?numberName ?unary ?binary ?conditional ?localCall ?settledCall ?pendingCall ok
  case literal =>
    intro _ value place
    refine .ofLiteral place (fun _ => rfl) fun _ n => ?_
    cases n with
    | zero => exact .deepRight trivial _
    | succ n => exact .ok rfl
  case localName => exact fun _ name place inside => .ofLocalName inside place
  case functionName =>
    intro _ name place t outside names snapped
    exact .ofFunctionName outside names (by simp [Table.contains, Table.findCons]) place
  case numberName => exact fun _ name place v outside _ found => .ofNumberName outside found place
  case unary =>
    intro _ op arg place body captures kept
    refine .ofOperation rfl rfl rfl fun fits m n => ?_
    cases m with
    | zero => exact .deepLeft trivial _
    | succ m =>
      cases n with
      | zero => exact .deepRight trivial _
      | succ n =>
        refine (kept.value fits m n).bind fun x y same => ?_
        subst y
        exact .refl (fun _ => rfl) _
  case binary =>
    intro _ op lhs rhs place left right first second keptLeft keptRight
    refine .ofOperation rfl rfl rfl fun fits m n => ?_
    cases m with
    | zero => exact .deepLeft trivial _
    | succ m =>
      cases n with
      | zero => exact .deepRight trivial _
      | succ n =>
        refine (keptLeft.value fits.left m n).bind fun x y same => ?_
        subst y
        refine (keptRight.value fits.right m n).bind fun x' y' same => ?_
        subst y'
        exact .refl (fun _ => rfl) _
  case conditional =>
    intro _ condition ifTrue ifFalse place c t f first second third keptC keptT keptF
    refine .ofOperation rfl rfl rfl fun {inner outer} fits m n => ?_
    cases m with
    | zero => exact .deepLeft trivial _
    | succ m =>
      cases n with
      | zero => exact .deepRight trivial _
      | succ n =>
        refine (keptC.value fits.left.left m n).bind fun x y same => ?_
        subst y
        have tested : Agree True True Eq (conditionHolds x) (conditionHolds x) :=
          .refl (fun _ => rfl) _
        refine tested.bind ?_
        rintro holds _ rfl
        cases holds with
        | true => exact keptT.value fits.left.right m n
        | false => exact keptF.value fits.right m n
  case localCall =>
    intro _ function args place parts inside each
    exact .ofCall place each (fun fits => fits) fun fits =>
      (fits.within function inside).definitions
  case settledCall =>
    intro limit function args place parts v outside each ready made
    exact .ofSettledCall place outside each ready made
  case pendingCall =>
    intro _ function args place parts t outside each _ _
    refine .ofCall place each Fits.left fun fits => ?_
    have member : ((capturesOf parts).union [(function, t)]).contains function = true := by
      rw [containsUnion]
      simp [Table.contains, Table.findCons]
    exact (fits.captured function member).trans (fits.beyond function outside).definitions.symm

end Scope

theorem adoptAllFind (captures : Captures) (start env : Environment)
    (taken : ∀ entry ∈ captures, env.definitions.find? entry.1 = some entry.2.2) (name : Name) :
    (captures.foldl (fun env entry => env.adopt entry.1 entry.2) start).definitions.find? name =
      if captures.contains name then env.definitions.find? name
      else start.definitions.find? name := by
  induction captures generalizing start with
  | nil => rfl
  | cons entry rest ih =>
    obtain ⟨key, t⟩ := entry
    have first := taken (key, t) List.mem_cons_self
    rw [List.foldl_cons, ih _ fun later member => taken later (List.mem_cons_of_mem _ member)]
    simp only [Environment.adoptFind, Table.contains, Table.findCons]
    by_cases same : name = key
    · subst name
      simp [first]
    · simp [same]

theorem adoptAllValues (captures : Captures) (start : Environment) :
    (captures.foldl (fun env entry => env.adopt entry.1 entry.2) start).values = start.values := by
  induction captures generalizing start with
  | nil => rfl
  | cons entry rest ih => exact (ih _).trans rfl

variable {limit : Nat} {env : Environment} {d stored : FunctionDefinition}

theorem withoutOther (env : Environment) {names : List Name} {name : Name} (other : name ∉ names) :
    Environment.AlikeAt name (env.without names) env := by
  constructor <;>
  · refine (Table.findFilter (fun key => !names.contains key) _ name).trans ?_
    simp [other]

theorem withoutNone (env : Environment) {names : List Name} {name : Name} (member : name ∈ names) :
    (env.without names).values.find? name = none ∧
      (env.without names).definitions.find? name = none := by
  constructor <;>
  · refine (Table.findFilter (fun key => !names.contains key) _ name).trans ?_
    simp [member]

theorem snapshotOk {name : Name} {t : Snapshot} (ok : env.snapshot name = .ok t) :
    env.definitions.find? name = some t.2 := by
  obtain ⟨d, found, last⟩ := bindIsOk.mp ok
  cases last
  exact Environment.lookupFunctionOk.mp found

theorem storedCaptured (condensed : d.condensed limit env = .ok stored) :
    ∀ entry ∈ stored.captures, entry.1 ∉ d.name :: d.params ∧
      env.definitions.find? entry.1 = some entry.2.2 := by
  obtain ⟨⟨body, captures⟩, inside, last⟩ := bindIsOk.mp condensed
  cases last
  intro entry member
  obtain ⟨outside, snapped⟩ := Scope.condenseCaptured inside entry member
  exact ⟨by simpa [Scope.isLocal, FunctionDefinition.scope] using outside, snapshotOk snapped⟩

theorem frameValues (known : Option FunctionDeclaration) : (d.frame known).values = [] :=
  adoptAllValues d.captures Environment.empty

theorem frameFind (condensed : d.condensed limit env = .ok stored)
    (known : Option FunctionDeclaration) (name : Name) :
    (stored.frame known).definitions.find? name =
      if name = stored.name then some stored
      else if Table.contains stored.captures name then env.definitions.find? name else none := by
  have taken := fun entry member => (storedCaptured condensed entry member).2
  rw [FunctionDefinition.frame, Environment.adoptFind,
    adoptAllFind stored.captures Environment.empty env taken name]
  rfl

theorem startsAlike (condensed : d.condensed limit env = .ok stored)
    (known signature : Option FunctionDeclaration) {name : Name}
    (inside : name ∈ d.name :: d.params) :
    Environment.AlikeAt name (stored.frame known)
      ((env.without (stored.name :: stored.params)).adopt stored.name (signature, stored)) := by
  obtain ⟨sameName, sameParams⟩ := condensedSignature condensed
  have inside' : name ∈ stored.name :: stored.params := by rwa [sameName, sameParams]
  obtain ⟨noValue, noDefinition⟩ := withoutNone env inside'
  have uncaptured : Table.contains stored.captures name = false := by
    refine Bool.eq_false_iff.mpr fun found => ?_
    obtain ⟨entry, member, rfl⟩ := Table.containsMember found
    exact (storedCaptured condensed entry member).1 inside
  constructor
  · exact (congrArg (Table.find? · name) (frameValues known)).trans noValue.symm
  · rw [frameFind condensed]
    simp [Environment.adoptFind, noDefinition, uncaptured]

theorem condensedFits (condensed : d.condensed limit env = .ok stored)
    (known signature : Option FunctionDeclaration) (arguments : List Argument) :
    (d.scope env).Fits stored.captures (stored.entered known arguments)
      (stored.boundOver env signature arguments) := by
  obtain ⟨sameName, sameParams⟩ := condensedSignature condensed
  have outsideBoth : ∀ {name}, (d.scope env).isLocal name = false →
      name ∉ stored.name :: stored.params := by
    intro name outside
    rw [sameName, sameParams]
    simpa [Scope.isLocal, FunctionDefinition.scope] using outside
  have entered : ∀ {name}, name ∉ stored.name :: stored.params →
      Environment.AlikeAt name (stored.entered known arguments) (stored.frame known) :=
    fun other => (stored.frame known).bindAllOther (mt (List.mem_cons_of_mem _) other) arguments
  refine ⟨fun name outside => ?_, fun name inside => ?_, fun name outside => ?_,
    fun name member => ?_⟩
  · have other := outsideBoth outside
    have different : name ≠ stored.name := fun same => other (same ▸ List.mem_cons_self)
    have bound := ((env.without (stored.name :: stored.params)).adopt stored.name
      (signature, stored)).bindAllOther (mt (List.mem_cons_of_mem _) other) arguments
    have kept := withoutOther env other
    refine ⟨bound.values.trans kept.values, bound.definitions.trans ?_⟩
    rw [Environment.adoptFind, if_neg different]
    exact kept.definitions
  · have inside : name ∈ d.name :: d.params := by
      simpa [Scope.isLocal, FunctionDefinition.scope] using inside
    exact (startsAlike condensed known signature inside).bindAll stored.params
      (List.forall₂_same.mpr fun x _ => x.alikeSelf)
  · rw [(entered (outsideBoth outside)).values, frameValues]
    rfl
  · obtain ⟨entry, present, rfl⟩ := Table.containsMember member
    have other : entry.1 ∉ stored.name :: stored.params := by
      rw [sameName, sameParams]
      exact (storedCaptured condensed entry present).1
    have different : entry.1 ≠ stored.name := fun same => other (same ▸ List.mem_cons_self)
    rw [(entered other).definitions, frameFind condensed, if_neg different, if_pos member]
    rfl

/-- A stored function, called with numbers and functions, comes to what its body as it was
written comes to in the environment of the definition, with the function and the arguments
taking the place of whatever else their names meant there. -/
theorem condensedBodyKeepsMeaning (condensed : d.condensed limit env = .ok stored)
    (known signature : Option FunctionDeclaration) (arguments : List Argument) (m n : Nat)
    (shallow : evaluate m (stored.entered known arguments) stored.body ≠ .error .tooDeep)
    (shallowOver : evaluate n (stored.boundOver env signature arguments) d.body ≠ .error .tooDeep) :
    evaluate m (stored.entered known arguments) stored.body =
      evaluate n (stored.boundOver env signature arguments) d.body := by
  have fits := condensedFits condensed known signature arguments
  obtain ⟨⟨body, captures⟩, inside, last⟩ := bindIsOk.mp condensed
  have kept := Scope.condenseKeeps inside
  cases last
  exact (kept.value fits m n).same (fun _ => shallow) fun _ => shallowOver

def square : FunctionDefinition where
  name := .greek .sigma
  params := [.greek .tau]
  body := .binary (.operator .multiplication) (.letter .tau) (.letter .tau) none
  captures := []
  place := none

def total : FunctionDefinition where
  name := .greek .phi
  params := [.greek .nu, .greek .gamma]
  body := .conditional (.binary (.relation .lessEq) (.letter .nu) (.integer 0) none)
    (.binary (.operator .addition) (.call (.greek .sigma) [.integer 3] none) (.letter .xi) none)
    (.binary (.operator .addition) (.call (.greek .gamma) [.letter .nu] none)
      (.call (.greek .phi)
        [.binary (.operator .subtraction) (.letter .nu) (.integer 1) none, .letter .sigma]
        none) none) none
  captures := []
  place := none

def totalScope : Environment :=
  ⟨[(.greek .xi, .integer 5), (.greek .nu, .integer 7)], [], [(.greek .sigma, square)]⟩

def condensedTotal : FunctionDefinition :=
  { total with
    body := .conditional (.binary (.relation .lessEq) (.letter .nu) (.integer 0) none)
      (.binary (.operator .addition) (.integer 9) (.integer 5) none)
      (.binary (.operator .addition) (.call (.greek .gamma) [.letter .nu] none)
        (.call (.greek .phi)
          [.binary (.operator .subtraction) (.letter .nu) (.integer 1) none, .letter .sigma]
          none) none) none
    captures := [(.greek .sigma, none, square)] }

def totalArguments : List Argument := [.number (.integer 2), .function (none, square)]

theorem totalKeepsMeaning :
    total.condensed 10 totalScope = .ok condensedTotal ∧
    evaluate 20 (condensedTotal.entered none totalArguments) condensedTotal.body =
      .ok (.integer 19) ∧
    evaluate 20 (condensedTotal.entered none totalArguments) condensedTotal.body =
      evaluate 20 (condensedTotal.boundOver totalScope none totalArguments) total.body := by
  have condensed : total.condensed 10 totalScope = .ok condensedTotal := rfl
  have stored : evaluate 20 (condensedTotal.entered none totalArguments) condensedTotal.body =
      .ok (.integer 19) := rfl
  have original : evaluate 20 (condensedTotal.boundOver totalScope none totalArguments)
      total.body = .ok (.integer 19) := rfl
  refine ⟨condensed, stored, ?_⟩
  refine condensedBodyKeepsMeaning condensed none none totalArguments 20 20 ?_ ?_
  · simp [stored]
  · simp [original]

end LiterateMath
