import LiterateMath.Proofs.Outcome
import LiterateMath.Parse.Value

/-! Lists divided by their brackets and keywords. A pass that divides a list goes over a stretch
whose brackets pair up, or whose conditionals are whole, without looking into it. -/
namespace LiterateMath

open Lexical

variable {α : Type} [Lexical α]

def bracketStep (depth : Nat) (a : α) : Option Nat :=
  match word? a with
  | some (.opening _) => some (depth + 1)
  | some (.closing _) => if depth = 0 then none else some (depth - 1)
  | _ => some depth

def openAfter (depth : Nat) (as : List α) : Option Nat := as.foldlM bracketStep depth

theorem bracketStepOpening {a : α} {b : Bracket} (h : word? a = some (.opening b))
    (depth : Nat) : bracketStep depth a = some (depth + 1) := by
  simp [bracketStep, h]

theorem bracketStepClosing {a : α} {b : Bracket} (h : word? a = some (.closing b))
    (depth : Nat) : bracketStep (depth + 1) a = some depth := by
  simp [bracketStep, h]

theorem bracketStepOther {a : α} (opens : ∀ b, word? a ≠ some (.opening b))
    (closes : ∀ b, word? a ≠ some (.closing b)) (depth : Nat) :
    bracketStep depth a = some depth := by
  unfold bracketStep
  split
  · exact absurd ‹_› (opens _)
  · exact absurd ‹_› (closes _)
  · rfl

theorem bracketStepNone {depth : Nat} {a : α} (h : bracketStep depth a = none) :
    depth = 0 ∧ ∃ b, word? a = some (.closing b) := by
  unfold bracketStep at h
  split at h
  · cases h
  · rename_i b word
    exact ⟨by by_contra other; simp [other] at h, b, word⟩
  · cases h

theorem bracketStepRaise {depth last : Nat} {a : α} (h : bracketStep depth a = some last)
    (more : Nat) : bracketStep (depth + more) a = some (last + more) := by
  unfold bracketStep at h
  split at h
  · rename_i b word
    cases h
    rw [bracketStepOpening word, Nat.add_right_comm]
  · rename_i b word
    obtain ⟨below, rfl⟩ : ∃ below, depth = below + 1 :=
      Nat.exists_eq_succ_of_ne_zero fun none => by simp [none] at h
    cases h
    rw [Nat.add_right_comm, bracketStepClosing word]
    rfl
  · rename_i opens closes
    cases h
    exact bracketStepOther opens closes _

theorem openAfterCons {depth next : Nat} {a : α} (h : bracketStep depth a = some next)
    (rest : List α) : openAfter depth (a :: rest) = openAfter next rest := by
  simp [openAfter, h]

theorem openAfterAppend {depth middle : Nat} {as : List α}
    (h : openAfter depth as = some middle) (bs : List α) :
    openAfter depth (as ++ bs) = openAfter middle bs := by
  unfold openAfter at *
  simp [List.foldlM_append, h]

theorem openAfterParts {depth last : Nat} {as bs : List α}
    (h : openAfter depth (as ++ bs) = some last) :
    ∃ middle, openAfter depth as = some middle ∧ openAfter middle bs = some last := by
  unfold openAfter at *
  rw [List.foldlM_append] at h
  exact Option.bind_eq_some_iff.mp h

theorem openAfterRaise {depth last : Nat} {as : List α} (h : openAfter depth as = some last)
    (more : Nat) : openAfter (depth + more) as = some (last + more) := by
  induction as generalizing depth with
  | nil =>
      cases h
      rfl
  | cons a rest ih =>
      obtain ⟨next, step, later⟩ := Option.bind_eq_some_iff.mp h
      rw [openAfterCons (bracketStepRaise step more)]
      exact ih later

def Balanced (as : List α) : Prop := openAfter 0 as = some 0

theorem Balanced.alone {as : List α} (h : Balanced as) (depth : Nat) :
    openAfter depth as = some depth := by
  simpa using openAfterRaise h depth

theorem Balanced.past {as : List α} (h : Balanced as) (depth : Nat) (bs : List α) :
    openAfter depth (as ++ bs) = openAfter depth bs := openAfterAppend (h.alone depth) bs

theorem Balanced.append {as bs : List α} (h : Balanced as) (h' : Balanced bs) :
    Balanced (as ++ bs) := by
  unfold Balanced
  rw [h.past, h']

theorem Balanced.replace {xs middle ys : List α} (h : Balanced (xs ++ (middle ++ ys)))
    (old : Balanced middle) {other : List α} (new : Balanced other) :
    Balanced (xs ++ (other ++ ys)) := by
  obtain ⟨depth, opened, later⟩ := openAfterParts h
  rw [old.past] at later
  unfold Balanced
  rw [openAfterAppend opened, new.past, later]

theorem Balanced.single {a : α} (opens : ∀ b, word? a ≠ some (.opening b))
    (closes : ∀ b, word? a ≠ some (.closing b)) : Balanced [a] :=
  openAfterCons (bracketStepOther opens closes 0) []

theorem Balanced.wrapped {b c : Bracket} {opener closer : α} {inside : List α}
    (h : Balanced inside) (opens : word? opener = some (.opening b))
    (closes : word? closer = some (.closing c)) : Balanced (opener :: inside ++ [closer]) := by
  unfold Balanced
  rw [List.cons_append, openAfterCons (bracketStepOpening opens 0), h.past,
    openAfterCons (bracketStepClosing closes 0)]
  rfl

theorem splitClosingCons (depth : Nat) (a : α) (rest : List α) :
    splitClosing depth (a :: rest) = match bracketStep depth a with
      | none => some ([], a, rest)
      | some next => (splitClosing next rest).map fun cut => (a :: cut.1, cut.2) := by
  cases word : word? a with
  | none => simp [splitClosing, bracketStep, word]
  | some w =>
      cases w with
      | closing b => cases depth <;> simp [splitClosing, bracketStep, word]
      | _ => simp [splitClosing, bracketStep, word]

theorem splitClosingOver {depth middle : Nat} {as : List α} (h : openAfter depth as = some middle)
    (bs : List α) : splitClosing depth (as ++ bs)
      = (splitClosing middle bs).map fun cut => (as ++ cut.1, cut.2) := by
  induction as generalizing depth with
  | nil =>
      cases h
      simp
  | cons a rest ih =>
      obtain ⟨next, step, later⟩ := Option.bind_eq_some_iff.mp h
      rw [List.cons_append, splitClosingCons, step]
      dsimp only
      rw [ih later, Option.map_map]
      rfl

theorem splitClosingFound {depth : Nat} {as inside after : List α} {closer : α}
    (h : splitClosing depth as = some (inside, closer, after)) :
    as = inside ++ closer :: after ∧ openAfter depth inside = some 0 ∧
      ∃ b, word? closer = some (.closing b) := by
  induction as generalizing depth inside with
  | nil => cases h
  | cons a rest ih =>
      rw [splitClosingCons] at h
      cases step : bracketStep depth a with
      | none =>
          rw [step] at h
          cases h
          obtain ⟨rfl, closes⟩ := bracketStepNone step
          exact ⟨rfl, rfl, closes⟩
      | some next =>
          rw [step] at h
          obtain ⟨⟨_, _, _⟩, cut, same⟩ := Option.map_eq_some_iff.mp h
          cases same
          obtain ⟨rfl, inner, closes⟩ := ih cut
          exact ⟨rfl, by rw [openAfterCons step, inner], closes⟩

theorem splitClosingNone {depth : Nat} {as : List α} (h : splitClosing depth as = none) :
    ∃ last, openAfter depth as = some last := by
  induction as generalizing depth with
  | nil => exact ⟨depth, rfl⟩
  | cons a rest ih =>
      rw [splitClosingCons] at h
      cases step : bracketStep depth a with
      | none => simp [step] at h
      | some next =>
          rw [openAfterCons step]
          exact ih (by simpa [step] using h)

theorem splitClosingAt {depth : Nat} {inside : List α} {b : Bracket} {closer : α}
    (h : openAfter depth inside = some 0) (closes : word? closer = some (.closing b))
    (after : List α) :
    splitClosing depth (inside ++ closer :: after) = some (inside, closer, after) := by
  have fails : bracketStep 0 closer = none := by simp [bracketStep, closes]
  rw [splitClosingOver h, splitClosingCons, fails]
  simp

theorem splitClosingLonger {depth : Nat} {as inside after : List α} {closer : α}
    (h : splitClosing depth as = some (inside, closer, after)) (bs : List α) :
    splitClosing depth (as ++ bs) = some (inside, closer, after ++ bs) := by
  obtain ⟨rfl, inner, b, closes⟩ := splitClosingFound h
  rw [List.append_assoc, List.cons_append, splitClosingAt inner closes]

theorem checkClosingOk {b : Bracket} {opener : Span} {closer : α}
    {u : Unit} : checkClosing b opener closer = .ok u ↔ word? closer = some (.closing b) := by
  unfold checkClosing
  split
  · simp [*]
  · simp [*]

theorem depthStepOpen {depth next : Nat} {a : α} (h : bracketStep depth a = some next) :
    (depth : Int) + depthStep a = next := by
  cases word : word? a with
  | none =>
      obtain rfl : depth = next := by simpa [bracketStep, word] using h
      simp [depthStep, word]
  | some w =>
      cases w with
      | opening b =>
          obtain rfl : depth + 1 = next := by simpa [bracketStep, word] using h
          simp [depthStep, word]
      | closing b =>
          obtain ⟨below, rfl⟩ : ∃ below, depth = below + 1 :=
            Nat.exists_eq_succ_of_ne_zero fun none => by simp [bracketStep, word, none] at h
          obtain rfl : below = next := by simpa [bracketStep, word] using h
          simp only [depthStep, word]
          omega
      | _ =>
          obtain rfl : depth = next := by simpa [bracketStep, word] using h
          simp [depthStep, word]

theorem modifyHeadTwice {β : Type} (as bs : List β) (parts : List (List β)) :
    (parts.modifyHead (bs ++ ·)).modifyHead (as ++ ·) = parts.modifyHead (as ++ bs ++ ·) := by
  cases parts with
  | nil => rfl
  | cons first rest => simp

theorem modifyHeadNothing {β : Type} (parts : List (List β)) :
    parts.modifyHead ([] ++ ·) = parts := by
  cases parts <;> rfl

theorem splitTopWithin {w : Word} {depth middle : Nat} {as : List α}
    (h : openAfter depth as = some middle) (bs : List α) :
    splitTop w (depth + 1 : Nat) (as ++ bs)
      = (splitTop w (middle + 1 : Nat) bs).modifyHead (as ++ ·) := by
  induction as generalizing depth with
  | nil =>
      cases h
      rw [modifyHeadNothing]
      rfl
  | cons a rest ih =>
      obtain ⟨next, step, later⟩ := Option.bind_eq_some_iff.mp h
      have inner : ((depth + 1 : Nat) : Int) ≠ 0 := by omega
      have deeper := depthStepOpen (bracketStepRaise step 1)
      rw [List.cons_append, splitTop, if_neg fun both => inner both.2, deeper, ih later]
      exact modifyHeadTwice [a] rest _

theorem splitTopOverGroup {w : Word} {b c : Bracket} {opener closer : α} {inside : List α}
    (h : Balanced inside) (opens : word? opener = some (.opening b))
    (closes : word? closer = some (.closing c)) (other : ∀ d, w ≠ .opening d ∧ w ≠ .closing d)
    (depth : Nat) (bs : List α) :
    splitTop w depth (opener :: inside ++ closer :: bs)
      = (splitTop w depth bs).modifyHead (opener :: inside ++ [closer] ++ ·) := by
  have first : word? opener ≠ some w := by
    rw [opens]
    exact fun same => (other b).1 (Option.some.inj same).symm
  have last : word? closer ≠ some w := by
    rw [closes]
    exact fun same => (other c).2 (Option.some.inj same).symm
  have up := depthStepOpen (bracketStepOpening opens depth)
  have down := depthStepOpen (bracketStepClosing closes depth)
  rw [List.cons_append, splitTop, if_neg fun both => first both.1, up,
    splitTopWithin (h.alone depth), splitTop, if_neg fun both => last both.1, down]
  refine (modifyHeadTwice [opener] inside _).trans ?_
  exact modifyHeadTwice ([opener] ++ inside) [closer] _

theorem splitTopFirst (w : Word) (depth : Int) (as : List α) :
    ∃ first rest, splitTop w depth as = first :: rest ∧
      ((as = first ∧ rest = []) ∨
        ∃ sep tail, word? sep = some w ∧ as = first ++ sep :: tail ∧ rest = splitTop w 0 tail) := by
  induction as generalizing depth with
  | nil => exact ⟨[], [], rfl, .inl ⟨rfl, rfl⟩⟩
  | cons a tail ih =>
      by_cases here : word? a = some w ∧ depth = 0
      · refine ⟨[], _, by rw [splitTop, if_pos here], .inr ⟨a, tail, here.1, rfl, ?_⟩⟩
        rw [here.2]
      · obtain ⟨first, rest, split, found⟩ := ih (depth + depthStep a)
        refine ⟨a :: first, rest, by rw [splitTop, if_neg here, split]; rfl, ?_⟩
        rcases found with ⟨rfl, none⟩ | ⟨sep, others, word, rfl, later⟩
        · exact .inl ⟨rfl, none⟩
        · exact .inr ⟨sep, others, word, rfl, later⟩

theorem splitTopLast {w : Word} (other : ∀ d, w ≠ .opening d ∧ w ≠ .closing d)
    {depth middle : Nat} {as : List α} (h : openAfter depth as = some middle) :
    ∃ front last,
      (∀ bs, splitTop w depth (as ++ bs)
        = front ++ (splitTop w middle bs).modifyHead (last ++ ·)) ∧
      ((front = [] ∧ as = last) ∨
        (front ≠ [] ∧ ∃ lead sep, word? sep = some w ∧ as = lead ++ sep :: last)) := by
  induction as generalizing depth with
  | nil =>
      cases h
      refine ⟨[], [], fun bs => ?_, .inl ⟨rfl, rfl⟩⟩
      rw [modifyHeadNothing]
      rfl
  | cons a rest ih =>
      obtain ⟨next, step, later⟩ := Option.bind_eq_some_iff.mp h
      obtain ⟨front, last, split, found⟩ := ih later
      by_cases here : word? a = some w ∧ (depth : Int) = 0
      · have stays := bracketStepOther (a := a)
          (fun d word => (other d).1 (Option.some.inj (here.1.symm.trans word)))
          (fun d word => (other d).2 (Option.some.inj (here.1.symm.trans word))) depth
        obtain rfl : next = depth := Option.some.inj (step.symm.trans stays)
        refine ⟨[] :: front, last, fun bs => ?_, .inr ⟨by simp, ?_⟩⟩
        · rw [List.cons_append, splitTop, if_pos here, split]
          rfl
        · rcases found with ⟨-, rfl⟩ | ⟨-, lead, sep, word, rfl⟩
          · exact ⟨[], a, here.1, rfl⟩
          · exact ⟨a :: lead, sep, word, rfl⟩
      · rcases found with ⟨rfl, rfl⟩ | ⟨parted, lead, sep, word, rfl⟩
        · refine ⟨[], a :: rest, fun bs => ?_, .inl ⟨rfl, rfl⟩⟩
          rw [List.cons_append, splitTop, if_neg here, depthStepOpen step, split]
          exact modifyHeadTwice [a] rest _
        · cases front with
          | nil => exact absurd rfl parted
          | cons part front =>
              refine ⟨(a :: part) :: front, last, fun bs => ?_, .inr ⟨by simp, ?_⟩⟩
              · rw [List.cons_append, splitTop, if_neg here, depthStepOpen step, split]
                rfl
              · exact ⟨a :: lead, sep, word, rfl⟩

def Whole (as : List α) : Prop :=
  ∀ target pending bs, cutAtKeyword target pending (as ++ bs)
    = (cutAtKeyword target pending bs).map fun cut => (as ++ cut.1, cut.2)

theorem cutAtKeywordIf {target : Keyword} {pending : Nat} {a : α} {rest : List α}
    (h : word? a = some (.keyword .ifWord)) : cutAtKeyword target pending (a :: rest)
      = (cutAtKeyword target (pending + 1) rest).map fun cut => (a :: cut.1, cut.2) := by
  cases pending <;> simp [cutAtKeyword, h]

theorem cutAtKeywordOther {target : Keyword} {pending : Nat} {a : α} {rest : List α}
    (h : ∀ k, word? a ≠ some (.keyword k)) : cutAtKeyword target pending (a :: rest)
      = (cutAtKeyword target pending rest).map fun cut => (a :: cut.1, cut.2) := by
  cases word : word? a with
  | none => cases pending <;> simp [cutAtKeyword, word]
  | some w =>
      cases w with
      | keyword k => exact absurd word (h k)
      | _ => cases pending <;> simp [cutAtKeyword, word]

theorem cutAtKeywordCons (target : Keyword) (pending : Nat) (a : α) :
    (∃ next, ∀ rest, cutAtKeyword target pending (a :: rest)
      = (cutAtKeyword target next rest).map fun cut => (a :: cut.1, cut.2)) ∨
    (word? a = some (.keyword target) ∧
      ∀ rest, cutAtKeyword target pending (a :: rest) = some ([], rest)) ∨
    ∀ rest, cutAtKeyword target pending (a :: rest) = none := by
  by_cases plain : ∀ k, word? a ≠ some (.keyword k)
  · exact .inl ⟨pending, fun rest => cutAtKeywordOther plain⟩
  · obtain ⟨k, word⟩ : ∃ k, word? a = some (.keyword k) := by
      simpa using plain
    by_cases nested : k = .ifWord
    · subst nested
      exact .inl ⟨pending + 1, fun rest => cutAtKeywordIf word⟩
    · cases pending with
      | zero =>
          by_cases hit : k = target
          · subst hit
            exact .inr (.inl ⟨word, fun rest => by cases k <;> simp_all [cutAtKeyword]⟩)
          · exact .inr (.inr fun rest => by cases k <;> simp_all [cutAtKeyword])
      | succ pending =>
          cases k with
          | ifWord => exact absurd rfl nested
          | thenWord => exact .inl ⟨pending + 1, fun rest => by simp [cutAtKeyword, word]⟩
          | elseWord => exact .inl ⟨pending, fun rest => by simp [cutAtKeyword, word]⟩

theorem cutAtKeywordFound {target : Keyword} {pending : Nat} {as before after : List α}
    (h : cutAtKeyword target pending as = some (before, after)) :
    ∃ sep, word? sep = some (.keyword target) ∧ as = before ++ sep :: after := by
  induction as generalizing pending before with
  | nil => cases h
  | cons a rest ih =>
      rcases cutAtKeywordCons target pending a with ⟨next, passes⟩ | ⟨word, cuts⟩ | fails
      · rw [passes] at h
        obtain ⟨⟨_, _⟩, cut, same⟩ := Option.map_eq_some_iff.mp h
        cases same
        obtain ⟨sep, word, rfl⟩ := ih cut
        exact ⟨sep, word, rfl⟩
      · rw [cuts] at h
        cases h
        exact ⟨a, word, rfl⟩
      · rw [fails] at h
        cases h

theorem Whole.nil : Whole ([] : List α) := by
  intro target pending bs
  simp

theorem Whole.append {as bs : List α} (h : Whole as) (h' : Whole bs) : Whole (as ++ bs) := by
  intro target pending cs
  rw [List.append_assoc, h, h', Option.map_map]
  simp [Function.comp_def]

theorem Whole.cons {a : α} {as : List α} (h : ∀ k, word? a ≠ some (.keyword k))
    (h' : Whole as) : Whole (a :: as) := by
  intro target pending cs
  rw [List.cons_append, cutAtKeywordOther h, h', Option.map_map]
  rfl

theorem Whole.conditional {a b c : α} {condition ifTrue ifFalse : List α}
    (first : word? a = some (.keyword .ifWord)) (second : word? b = some (.keyword .thenWord))
    (third : word? c = some (.keyword .elseWord)) (h : Whole condition) (h' : Whole ifTrue)
    (h'' : Whole ifFalse) : Whole (a :: condition ++ b :: ifTrue ++ c :: ifFalse) := by
  intro target pending bs
  have overThen : ∀ rest, cutAtKeyword target (pending + 1) (b :: rest)
      = (cutAtKeyword target (pending + 1) rest).map fun cut => (b :: cut.1, cut.2) := by
    intro rest
    simp [cutAtKeyword, second]
  have overElse : ∀ rest, cutAtKeyword target (pending + 1) (c :: rest)
      = (cutAtKeyword target pending rest).map fun cut => (c :: cut.1, cut.2) := by
    intro rest
    simp [cutAtKeyword, third]
  simp only [List.append_assoc, List.cons_append]
  rw [cutAtKeywordIf first, h, overThen, h', overElse, h'']
  simp [Function.comp_def]

theorem Whole.parts {as : List α} {depth : Int}
    (h : ∀ part ∈ splitTop .comma depth as, Whole part) : Whole as := by
  generalize size : as.length = n
  induction n using Nat.strongRecOn generalizing as depth with
  | ind n ih =>
      obtain ⟨first, rest, split, ⟨rfl, -⟩ | ⟨sep, tail, word, rfl, rfl⟩⟩ :=
        splitTopFirst .comma depth as
      · exact h as (by simp [split])
      · have head := h first (by simp [split])
        have later : ∀ part ∈ splitTop .comma 0 tail, Whole part := fun part member =>
          h part (by simp [split, member])
        refine head.append (.cons (fun k other => by cases word.symm.trans other) ?_)
        exact ih tail.length (by simp at size; omega) later rfl

theorem cutAtKeywordAround {target : Keyword} {pending : Nat} {xs middle ys before after : List α}
    (whole : Whole middle)
    (h : cutAtKeyword target pending (xs ++ middle ++ ys) = some (before, after)) :
    (∃ sep more, word? sep = some (.keyword target) ∧ xs = before ++ sep :: more ∧
      after = more ++ middle ++ ys ∧
      ∀ zs, cutAtKeyword target pending (xs ++ zs) = some (before, more ++ zs)) ∨
    (∃ sep more, word? sep = some (.keyword target) ∧ ys = more ++ sep :: after ∧
      before = xs ++ middle ++ more ∧
      ∀ other, Whole other →
        cutAtKeyword target pending (xs ++ other ++ ys) = some (xs ++ other ++ more, after)) := by
  induction xs generalizing pending before with
  | nil =>
      rw [List.nil_append, whole] at h
      obtain ⟨⟨more, _⟩, cut, same⟩ := Option.map_eq_some_iff.mp h
      cases same
      obtain ⟨sep, word, found⟩ := cutAtKeywordFound cut
      refine .inr ⟨sep, more, word, found, rfl, fun other stays => ?_⟩
      rw [List.nil_append, stays, cut]
      rfl
  | cons a xs ih =>
      rw [List.cons_append, List.cons_append] at h
      rcases cutAtKeywordCons target pending a with ⟨next, passes⟩ | ⟨word, cuts⟩ | fails
      · rw [passes] at h
        obtain ⟨⟨_, _⟩, cut, same⟩ := Option.map_eq_some_iff.mp h
        cases same
        rcases ih cut with
          ⟨sep, more, word, rfl, rest, anyway⟩ | ⟨sep, more, word, found, rfl, anyway⟩
        · refine .inl ⟨sep, more, word, rfl, rest, fun zs => ?_⟩
          rw [List.cons_append, passes, anyway]
          rfl
        · refine .inr ⟨sep, more, word, found, rfl, fun other stays => ?_⟩
          rw [List.cons_append, List.cons_append, passes, anyway other stays]
          rfl
      · rw [cuts] at h
        cases h
        exact .inl ⟨a, xs, word, rfl, rfl, fun zs => cuts _⟩
      · rw [fails] at h
        cases h

end LiterateMath
