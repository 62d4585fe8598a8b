import LiterateMath.Proofs.Condensation
import LiterateMath.Proofs.Printing.Legible
import LiterateMath.Report.Account

/-! Stored functions are closed: what their bodies mention is a parameter, the function itself or
something captured, and what was captured is closed again. -/
namespace LiterateMath

namespace Expr

mutual

def mentioned : Expr → List Name
  | literal .. => []
  | lookup name _ => [name]
  | call function args _ => function :: mentionedIn args
  | unary _ arg _ => arg.mentioned
  | binary _ lhs rhs _ => lhs.mentioned ++ rhs.mentioned
  | conditional condition ifTrue ifFalse _ =>
      condition.mentioned ++ ifTrue.mentioned ++ ifFalse.mentioned

def mentionedIn : List Expr → List Name
  | [] => []
  | e :: rest => e.mentioned ++ mentionedIn rest

end

theorem mentionedWithin {args : List Expr} {name : Name} :
    name ∈ mentionedIn args ↔ ∃ e ∈ args, name ∈ e.mentioned := by
  induction args with
  | nil => simp [mentionedIn]
  | cons e rest ih => simp [mentionedIn, ih]

end Expr

inductive FunctionDefinition.Closed : FunctionDefinition → Prop where
  | intro {d : FunctionDefinition} (distinct : d.params.Nodup)
      (apart : ∀ entry ∈ d.captures, entry.1 ∉ d.name :: d.params)
      (names : ∀ name ∈ d.body.mentioned,
        name ∈ d.name :: d.params ∨ Table.contains d.captures name = true)
      (keyed : ∀ entry ∈ d.captures, entry.2.2.name = entry.1)
      (within : ∀ entry ∈ d.captures, entry.2.2.Closed) : d.Closed

namespace Table

variable {α : Type} {t : Table α} {name : Name} {value : α}

theorem findMember (found : t.find? name = some value) : (name, value) ∈ t := by
  induction t with
  | nil => cases found
  | cons entry rest ih =>
      obtain ⟨key, first⟩ := entry
      rw [findCons] at found
      split at found
      · rename_i same
        cases found
        exact same ▸ List.mem_cons_self
      · exact List.mem_cons_of_mem _ (ih found)

theorem insertMember {entry : Name × α} (member : entry ∈ t.insert name value) :
    entry = (name, value) ∨ entry ∈ t :=
  (List.mem_cons.mp member).imp_right List.mem_of_mem_filter

end Table

namespace Scope

variable {s : Scope} {args : List Expr} {parts : List (Expr × Captures)} {e body : Expr}
  {captures : Captures}

def Covers (s : Scope) (body : Expr) (captures : Captures) : Prop :=
  ∀ name ∈ body.mentioned, s.isLocal name = true ∨ captures.contains name = true

theorem Covers.left {first : Captures} (covers : s.Covers body first) (second : Captures) :
    s.Covers body (first.union second) := by
  intro name member
  refine (covers name member).imp_right fun captured => ?_
  simp [containsUnion, captured]

theorem Covers.right {second : Captures} (covers : s.Covers body second) (first : Captures) :
    s.Covers body (first.union second) := by
  intro name member
  refine (covers name member).imp_right fun captured => ?_
  simp [containsUnion, captured]

theorem Covers.ofParts (each : List.Forall₂ (fun _ part => s.Covers part.1 part.2) args parts) :
    ∀ body ∈ parts.map Prod.fst, s.Covers body (capturesOf parts) := by
  induction each with
  | nil => simp
  | @cons _ part _ parts first _ ih =>
      intro body member
      rcases List.mem_cons.mp member with rfl | later
      · exact first.left (capturesOf parts)
      · exact (ih body later).right part.2

theorem Covers.ofCall {function : Name} {bodies : List Expr} (place : Option Span)
    (within : ∀ body ∈ bodies, s.Covers body captures)
    (known : s.isLocal function = true ∨ captures.contains function = true) :
    s.Covers (.call function bodies place) captures := by
  intro name member
  rcases List.mem_cons.mp member with rfl | inside
  · exact known
  · obtain ⟨body, given, mentioned⟩ := Expr.mentionedWithin.mp inside
    exact within body given name mentioned

theorem condenseCovers {limit : Nat} (ok : condense s limit e = .ok (body, captures)) :
    s.Covers body captures := by
  have nothing (value : Number) (place : Option Span) (captures : Captures) :
      s.Covers (.literal value place) captures := fun name member => nomatch member
  refine condenseInduction (motive := fun _ _ => s.Covers) ?literal ?localName ?functionName
    ?numberName ?unary ?binary ?conditional ?localCall ?settledCall ?pendingCall ok
  case literal => exact fun _ value place => nothing value place []
  case localName =>
    intro _ name place inside other member
    exact .inl (List.mem_singleton.mp member ▸ inside)
  case functionName =>
    intro _ name place t _ _ _ other member
    exact .inr (by simp [List.mem_singleton.mp member, Table.contains, Table.findCons])
  case numberName => exact fun _ _ place value _ _ _ => nothing value place []
  case unary => exact fun _ _ _ _ _ _ inside => inside
  case binary =>
    intro _ _ _ _ _ _ _ first second inLeft inRight name member
    rcases List.mem_append.mp member with left | right
    · exact inLeft.left second name left
    · exact inRight.right first name right
  case conditional =>
    intro _ _ _ _ _ _ _ _ first second third inCondition inTrue inFalse name member
    rcases List.mem_append.mp member with before | last
    · rcases List.mem_append.mp before with condition | ifTrue
      · exact (inCondition.left second).left third name condition
      · exact (inTrue.right first).left third name ifTrue
    · exact inFalse.right (first.union second) name last
  case localCall =>
    exact fun _ _ _ place parts inside each => .ofCall place (.ofParts each) (.inl inside)
  case settledCall => exact fun _ _ _ place parts value _ _ _ _ => nothing value place _
  case pendingCall =>
    intro _ function _ place parts t _ each _ _
    refine .ofCall place (fun body given => (Covers.ofParts each body given).left _) (.inr ?_)
    rw [containsUnion]
    simp [Table.contains, Table.findCons]

end Scope

section Storing

def Environment.StoresClosed (env : Environment) : Prop :=
  ∀ entry ∈ env.definitions, entry.2.name = entry.1 ∧ entry.2.Closed

def Statement.ParametersDiffer : Statement → Prop
  | functionDefinition d => d.params.Nodup
  | _ => True

variable {limit : Nat} {strict : Bool} {env next : Environment} {d stored : FunctionDefinition}
  {statement : Statement} {line : Option String}

theorem condensedClosed (closed : env.StoresClosed) (distinct : d.params.Nodup)
    (condensed : d.condensed limit env = .ok stored) : stored.Closed := by
  obtain ⟨sameName, sameParams⟩ := condensedSignature condensed
  have kept := storedCaptured condensed
  have taken := fun entry member => closed _ (Table.findMember (kept entry member).2)
  refine .intro (sameParams ▸ distinct) ?_ ?_ (fun entry member => (taken entry member).1)
    fun entry member => (taken entry member).2
  · intro entry member
    rw [sameName, sameParams]
    exact (kept entry member).1
  · obtain ⟨⟨body, captures⟩, inside, last⟩ := bindIsOk.mp condensed
    cases last
    intro name member
    refine (Scope.condenseCovers inside name member).imp_left fun isLocal => ?_
    simpa [Scope.isLocal, FunctionDefinition.scope] using isLocal

theorem definedClosed (closed : env.StoresClosed) (d : FunctionDefinition) (sound : d.Closed) :
    (env.define d).StoresClosed := by
  intro entry member
  rcases Table.insertMember member with rfl | before
  · exact ⟨rfl, sound⟩
  · exact closed entry before

theorem Statement.runClosed (closed : env.StoresClosed) (distinct : statement.ParametersDiffer)
    (done : statement.run limit strict env = .ok (next, line)) : next.StoresClosed := by
  cases runDoes done with
  | @defines d stored found =>
      unfold storedDefinition at found
      split at found
      · cases found
      · exact definedClosed closed stored (condensedClosed closed distinct found)
  | _ => exact closed

theorem Session.runClosed {s : Session} {program : List Statement}
    (closed : s.env.StoresClosed)
    (distinct : ∀ statement ∈ program, statement.ParametersDiffer) :
    (s.run program limit).session.env.StoresClosed :=
  runKeeps closed fun statement member _ _ _ closed done =>
    statement.runClosed closed (distinct statement member) done

inductive Session.Reachable : Session → Prop where
  | fresh (strict : Bool) : Reachable (.fresh strict)
  | run {s : Session} {program : List Statement} (limit : Nat) (before : s.Reachable)
      (distinct : ∀ statement ∈ program, statement.ParametersDiffer) :
      Reachable (s.run program limit).session

theorem reachableClosed {s : Session} (reachable : s.Reachable) : s.env.StoresClosed := by
  induction reachable with
  | fresh strict => exact fun entry member => nomatch member
  | run limit before distinct closed => exact Session.runClosed closed distinct

theorem repeatNone {params : List Name} (once : hasRepeat params = false) : params.Nodup := by
  induction params with
  | nil => exact .nil
  | cons n rest ih =>
      simp only [hasRepeat, Bool.or_eq_false_iff, List.contains_eq_mem, decide_eq_false_iff_not]
        at once
      exact List.nodup_cons.mpr ⟨once.1, ih once.2⟩

theorem parsedParametersDiffer {doc : Document} {statements : List Statement}
    (parsed : doc.parse = .ok statements) :
    ∀ statement ∈ statements, statement.ParametersDiffer := by
  intro statement member
  obtain ⟨code, reads, each⟩ := bindIsOk.mp parsed
  obtain ⟨slice, inCode, read⟩ := mapMFrom each statement member
  have legible := statementLegible read (sliceProper (codeTokensLexed reads) inCode)
  cases statement with
  | functionDefinition d => exact repeatNone legible.2.2.1
  | _ => trivial

end Storing

end LiterateMath
