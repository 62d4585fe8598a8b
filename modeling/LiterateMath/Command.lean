import LiterateMath.Token.Basic

/-! Backslash commands. A backslash before text is a stub; a stub whose name is in the table
becomes the word that it stands for; any other stub takes the groups that follow it as its
arguments. Each of these passes goes over the whole list of tokens and none of them fails. -/
namespace LiterateMath

def operatorCommands : List (String × BinaryOperator) :=
  [("pm", .plusMinus), ("setminus", .setDifference), ("cdot", .multiplication),
   ("times", .multiplication), ("ast", .multiplication), ("div", .division),
   ("wedge", .conjunction), ("vee", .disjunction), ("oplus", .exclusiveOr),
   ("extprod", .externalProduct), ("intprod", .internalProduct), ("cup", .union),
   ("cap", .intersection)]

def commandTable : List (String × Word) :=
  GreekLetter.all.map (fun l => (l.spelling, .greek l))
    ++ Relation.all.map (fun r => (r.spelling, .relation r))
    ++ SetRelation.all.map (fun r => (r.spelling, .setRelation r))
    ++ BigOperator.all.map (fun o => (o.spelling, .bigOperator o))
    ++ operatorCommands.map (fun entry => (entry.1, .operator entry.2))
    ++ [("neg", .unary .complement), ("lnot", .unary .complement),
        ("to", .arrow), ("rightarrow", .arrow)]
    ++ Keyword.all.map (fun k => (k.text, .keyword k))

def meaning? (name : String) : Option Word := commandTable.lookup name

def formStubs : List Token → List Token
  | .plain .backslash first :: .plain (.text name) last :: rest =>
      .plain (.stub name) (first.through last) :: formStubs rest
  | t :: rest => t :: formStubs rest
  | [] => []

def resolveName : Token → Token
  | .plain (.stub name) place => .plain ((meaning? name).getD (.stub name)) place
  | t => t

def resolveNames (ts : List Token) : List Token := ts.map resolveName

inductive GroupKind where
  | required | optional
  deriving DecidableEq, Repr

def GroupKind.bracket : GroupKind → Bracket
  | required => .brace | optional => .square

def groupKind? (t : Token) : Option GroupKind :=
  if t.opens .brace then some .required
  else if t.opens .square then some .optional
  else none

/-- Divides what follows an opening bracket at the closing one. Only brackets of the same kind
count toward the depth. Without a partner all the rest lies inside, and nothing follows. -/
def splitGroup (b : Bracket) : (depth : Nat) → List Token → List Token × List Token
  | _, [] => ([], [])
  | depth, t :: rest =>
      if t.opens b then
        let cut := splitGroup b (depth + 1) rest
        (t :: cut.1, cut.2)
      else if t.closes b then
        match depth with
        | 0 => ([], t :: rest)
        | depth + 1 =>
            let cut := splitGroup b depth rest
            (t :: cut.1, cut.2)
      else
        let cut := splitGroup b depth rest
        (t :: cut.1, cut.2)

theorem splitGroupAppend (b : Bracket) (depth : Nat) (ts : List Token) :
    (splitGroup b depth ts).1 ++ (splitGroup b depth ts).2 = ts := by
  induction ts generalizing depth with
  | nil => rfl
  | cons t rest ih =>
      unfold splitGroup
      split
      · simp [ih]
      · split
        · cases depth with
          | zero => rfl
          | succ depth => simp [ih]
        · simp [ih]

theorem splitGroupLength (b : Bracket) (depth : Nat) (ts : List Token) :
    (splitGroup b depth ts).1.length + (splitGroup b depth ts).2.length = ts.length := by
  rw [← List.length_append, splitGroupAppend]

structure Group where
  kind : GroupKind
  inside : List Token
  last : Token

def takeGroups : List Token → List Group × List Token
  | [] => ([], [])
  | t :: rest =>
      match groupKind? t with
      | none => ([], t :: rest)
      | some kind =>
          let cut := splitGroup kind.bracket 0 rest
          let last := cut.2.head?.getD (cut.1.getLastD t)
          let more := takeGroups (cut.2.drop 1)
          (⟨kind, cut.1, last⟩ :: more.1, more.2)
termination_by ts => ts.length
decreasing_by
  have := splitGroupLength kind.bracket 0 rest
  simp only [List.length_drop, List.length_cons]
  omega

theorem takeGroupsLength (ts : List Token) : (takeGroups ts).2.length ≤ ts.length := by
  fun_induction takeGroups ts with
  | case1 => exact Nat.le_refl 0
  | case2 => exact Nat.le_refl _
  | case3 t rest kind _ cut last more ih =>
      have whole := splitGroupLength kind.bracket 0 rest
      have after : more.2.length ≤ (cut.2.drop 1).length := ih
      simp only [cut, List.length_drop, List.length_cons] at after ⊢
      omega

theorem takeGroupsInside (ts : List Token) :
    ∀ g ∈ (takeGroups ts).1, g.inside.length < ts.length := by
  fun_induction takeGroups ts with
  | case1 => simp
  | case2 => simp
  | case3 t rest kind _ cut last more ih =>
      have whole := splitGroupLength kind.bracket 0 rest
      intro g member
      rcases List.mem_cons.mp member with rfl | later
      · simp only [cut, List.length_cons]
        omega
      · have smaller := ih g later
        simp only [cut, List.length_drop, List.length_cons] at smaller ⊢
        omega

def groupsOf (kind : GroupKind) (groups : List (GroupKind × List Token)) : List (List Token) :=
  (groups.filter (fun g => g.1 = kind)).map Prod.snd

def withGroups (name : String) (place : Span) (groups : List (GroupKind × List Token)) :
    (last : Option Token) → Token
  | none => .plain (.stub name) place
  | some last =>
      .command name (groupsOf .required groups) (groupsOf .optional groups)
        (place.through last.span)

def captureArguments : List Token → List Token
  | [] => []
  | .plain (.stub name) place :: rest =>
      let taken := takeGroups rest
      let groups := taken.1.attach.map fun g => (g.val.kind, captureArguments g.val.inside)
      withGroups name place groups (taken.1.getLast?.map Group.last)
        :: captureArguments taken.2
  | t :: rest => t :: captureArguments rest
termination_by ts => ts.length
decreasing_by
  · have := takeGroupsInside rest g.val g.property
    simp only [List.length_cons]
    omega
  · have := takeGroupsLength rest
    simp only [List.length_cons]
    omega
  · simp

mutual

def Token.nesting : Token → Nat
  | .plain .. => 0
  | .command _ required optional _ =>
      1 + max (nestingGroups required) (nestingGroups optional)

def nesting : List Token → Nat
  | [] => 0
  | t :: rest => max t.nesting (nesting rest)

def nestingGroups : List (List Token) → Nat
  | [] => 0
  | g :: rest => max (nesting g) (nestingGroups rest)

end

end LiterateMath
