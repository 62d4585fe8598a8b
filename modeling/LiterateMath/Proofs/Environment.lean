import LiterateMath.Proofs.Outcome
import LiterateMath.Evaluate

/-! What names mean in an environment, declarations aside: they are handed along with every
function and no value depends on them. An argument of a call is a number, or a function as a
snapshot of it. -/
namespace LiterateMath

namespace Table

variable {α : Type}

theorem findCons (t : Table α) (name other : Name) (value : α) :
    find? ((name, value) :: t) other = if other = name then some value else t.find? other := by
  by_cases same : other = name
  · subst other
    simp [find?]
  · have different : (other == name) = false := beq_eq_false_iff_ne.mpr same
    simp [find?, List.lookup_cons, different, same]

theorem findFilter (keep : Name → Bool) (t : Table α) (name : Name) :
    find? (List.filter (fun entry => keep entry.1) t) name
      = if keep name then t.find? name else none := by
  induction t with
  | nil => simp [find?]
  | cons entry rest ih =>
    obtain ⟨key, value⟩ := entry
    rw [findCons]
    by_cases same : name = key
    · subst name
      cases kept : keep key with
      | true => simp [kept, findCons]
      | false => simpa [List.filter_cons, kept] using ih
    · cases kept : keep key with
      | true => simp [kept, findCons, same, ih]
      | false => simpa [List.filter_cons, kept, same] using ih

theorem findInsert (t : Table α) (name other : Name) (value : α) :
    (t.insert name value).find? other = if other = name then some value else t.find? other := by
  rw [insert, findCons]
  by_cases same : other = name
  · simp [same]
  · have kept := findFilter (fun key => key != name) t other
    simp only [bne_iff_ne, ne_eq, same, not_false_eq_true, if_true] at kept
    simpa [remove, same] using kept

theorem findAppend (s t : Table α) (name : Name) :
    find? (s ++ t) name = (s.find? name).or (t.find? name) := by
  induction s with
  | nil => simp [find?]
  | cons entry rest ih =>
    obtain ⟨key, value⟩ := entry
    rw [List.cons_append, findCons, findCons, ih]
    split <;> rfl

theorem containsMember {t : Table α} {name : Name} (found : t.contains name = true) :
    ∃ entry ∈ t, entry.1 = name := by
  induction t with
  | nil => cases found
  | cons entry rest ih =>
    obtain ⟨key, value⟩ := entry
    by_cases same : name = key
    · exact ⟨(key, value), List.mem_cons_self, same.symm⟩
    · simp only [contains, findCons, if_neg same] at found
      obtain ⟨entry, member, named⟩ := ih found
      exact ⟨entry, List.mem_cons_of_mem _ member, named⟩

theorem findUnion (s t : Table α) (name : Name) :
    (s.union t).find? name = (s.find? name).or (t.find? name) := by
  rw [union, findAppend, findFilter (fun key => !s.contains key)]
  cases found : s.find? name with
  | some value => rfl
  | none => simp [contains, found]

theorem unionNil (t : Table α) : t.union [] = t := List.append_nil t

theorem nilUnion (t : Table α) : union [] t = t := by
  simp [union, contains, find?]

theorem unionAssoc (s t u : Table α) : (s.union t).union u = s.union (t.union u) := by
  have outside (name : Name) :
      (s.union t).contains name = (s.contains name || t.contains name) := by
    simp only [contains, findUnion]
    cases s.find? name <;> rfl
  simp only [union, List.filter_append, List.filter_filter, List.append_assoc]
  congr 2
  refine List.filter_congr fun entry _ => ?_
  rw [← Bool.not_or, ← outside]
  rfl

end Table

structure Environment.AlikeAt (name : Name) (a b : Environment) : Prop where
  values : a.values.find? name = b.values.find? name
  definitions : a.definitions.find? name = b.definitions.find? name

def Environment.Alike (a b : Environment) : Prop := ∀ name, AlikeAt name a b

inductive Argument where
  | number (value : Number)
  | function (s : Snapshot)

inductive Argument.Alike : Argument → Argument → Prop where
  | number (value : Number) : Alike (.number value) (.number value)
  | function {s t : Snapshot} (same : s.2 = t.2) : Alike (.function s) (.function t)

theorem Argument.alikeSelf (x : Argument) : x.Alike x := by
  cases x with
  | number value => exact .number value
  | function s => exact .function rfl

namespace Environment

def bindArgument (env : Environment) (param : Name) : Argument → Environment
  | .number value => env.bindVariable param value
  | .function s => env.adopt param s

def bindAll (env : Environment) : List (Name × Argument) → Environment
  | [] => env
  | (param, a) :: rest => (env.bindArgument param a).bindAll rest

def argument (eval : Expr → Outcome Number) (caller : Environment) (e : Expr) :
    Outcome Argument :=
  match caller.functionArgument? e with
  | some s => .ok (.function s)
  | none => do return .number (← eval e)

theorem adoptFind (env : Environment) (param name : Name) (s : Snapshot) :
    (env.adopt param s).definitions.find? name =
      if name = param then some s.2 else env.definitions.find? name :=
  Table.findInsert env.definitions param name s.2

theorem AlikeAt.namesFunction {a b : Environment} {name : Name} (alike : AlikeAt name a b) :
    a.namesFunction name = b.namesFunction name := by
  simp only [Environment.namesFunction, Table.contains, alike.values, alike.definitions]

theorem AlikeAt.adopt {a b : Environment} {name : Name} (alike : AlikeAt name a b)
    (param : Name) {s t : Snapshot} (same : s.2 = t.2) :
    AlikeAt name (a.adopt param s) (b.adopt param t) where
  values := alike.values
  definitions := by simp only [adoptFind, alike.definitions, same]

theorem AlikeAt.bindArgument {a b : Environment} {name : Name} (alike : AlikeAt name a b)
    (param : Name) {x y : Argument} (same : x.Alike y) :
    AlikeAt name (a.bindArgument param x) (b.bindArgument param y) := by
  cases same with
  | number value =>
    refine ⟨?_, alike.definitions⟩
    simp only [Environment.bindArgument, bindVariable, Table.findInsert, alike.values]
  | function same => exact alike.adopt param same

theorem AlikeAt.bindAll {a b : Environment} {name : Name} (alike : AlikeAt name a b)
    (params : List Name) {xs ys : List Argument} (same : List.Forall₂ Argument.Alike xs ys) :
    AlikeAt name (a.bindAll (params.zip xs)) (b.bindAll (params.zip ys)) := by
  induction params generalizing a b xs ys with
  | nil => exact alike
  | cons param params ih =>
    cases same with
    | nil => exact alike
    | cons first rest => exact ih (alike.bindArgument param first) rest

theorem bindArgumentOther (env : Environment) {name param : Name} (other : name ≠ param)
    (x : Argument) : AlikeAt name (env.bindArgument param x) env := by
  cases x with
  | number value =>
    exact ⟨by simp [bindArgument, bindVariable, Table.findInsert, other], rfl⟩
  | function s => exact ⟨rfl, by simp [bindArgument, adoptFind, other]⟩

theorem bindAllOther (env : Environment) {name : Name} {params : List Name}
    (other : name ∉ params) (xs : List Argument) :
    AlikeAt name (env.bindAll (params.zip xs)) env := by
  induction params generalizing env xs with
  | nil => exact ⟨rfl, rfl⟩
  | cons param params ih =>
    cases xs with
    | nil => exact ⟨rfl, rfl⟩
    | cons x xs =>
      obtain ⟨different, others⟩ := not_or.mp (mt List.mem_cons.mpr other)
      have first := env.bindArgumentOther different x
      have rest := ih (env.bindArgument param x) others xs
      exact ⟨rest.values.trans first.values, rest.definitions.trans first.definitions⟩

theorem bindArgumentsAll (eval : Expr → Outcome Number) (caller inner : Environment)
    (params : List Name) (args : List Expr) (oneEach : args.length = params.length) :
    bindArguments eval caller inner (params.zip args) = (do
      let found ← args.mapM (caller.argument eval)
      return inner.bindAll (params.zip found)) := by
  induction args generalizing inner params with
  | nil =>
    have none : params = [] := List.length_eq_zero_iff.mp oneEach.symm
    subst params
    rfl
  | cons e rest ih =>
    cases params with
    | nil => simp at oneEach
    | cons param params =>
      have fewer : rest.length = params.length := by simpa using oneEach
      simp only [List.zip_cons_cons, bindArguments, List.mapM_cons, argument]
      cases caller.functionArgument? e with
      | some s =>
        simp only [ih _ _ fewer]
        cases rest.mapM (argument eval caller) <;> rfl
      | none =>
        cases eval e with
        | error fault => rfl
        | ok value =>
          simp only [bindOk, ih _ _ fewer]
          cases rest.mapM (argument eval caller) <;> rfl

end Environment

def FunctionDefinition.entered (d : FunctionDefinition) (known : Option FunctionDeclaration)
    (arguments : List Argument) : Environment :=
  (d.frame known).bindAll (d.params.zip arguments)

theorem FunctionDefinition.enteredAlike (d : FunctionDefinition)
    (known other : Option FunctionDeclaration) {xs ys : List Argument}
    (same : List.Forall₂ Argument.Alike xs ys) :
    (d.entered known xs).Alike (d.entered other ys) := by
  intro name
  have start : Environment.AlikeAt name (d.frame known) (d.frame other) :=
    Environment.AlikeAt.adopt ⟨rfl, rfl⟩ d.name rfl
  exact start.bindAll d.params same

end LiterateMath
