import LiterateMath.Proofs.Brackets
import LiterateMath.Proofs.Splice

/-! The passes that make pieces of tokens, taken over a list that is divided by a token which no
name and no number can contain: what stands on either side is read by itself. -/
namespace LiterateMath

open Lexical

namespace Word

def inName : Word → Bool
  | text _ | greek _ | number _ | underscore | opening .brace | closing .brace => true
  | _ => false

def separates (w : Word) : Bool := !w.inName && w != point

end Word

def Token.inName (t : Token) : Bool :=
  match t.word? with
  | some w => w.inName
  | none => false

theorem tokenOpens {b : Bracket} {t : Token} (h : t.opens b = true) :
    t.word? = some (.opening b) := by
  unfold Token.opens at h
  split at h
  · obtain rfl := of_decide_eq_true h
    rfl
  · cases h

theorem plainOf {t : Token} {w : Word} (h : t.word? = some w) : t = .plain w t.span := by
  cases t with
  | plain w' place =>
      cases h
      rfl
  | command => cases h

theorem opensWord {t : Token} {b : Bracket} : t.opens b = true ↔ t.word? = some (.opening b) := by
  refine ⟨tokenOpens, fun word => ?_⟩
  rw [plainOf word]
  exact decide_eq_true rfl

section Separated

variable {w : Word} {place : Span}

theorem joinRealsSeparated (h : w.separates = true) (xs ys : List Token) :
    joinReals (xs ++ .plain w place :: ys) = joinReals xs ++ .plain w place :: joinReals ys := by
  fun_induction joinReals xs with
  | case1 whole first at_ fraction last rest ih => simp [joinReals, ih]
  | case2 t rest shape ih =>
      have single : joinReals (t :: (rest ++ .plain w place :: ys))
          = t :: joinReals (rest ++ .plain w place :: ys) := by
        rw [joinReals]
        intro whole first at_ fraction last more same after
        cases rest with
        | nil =>
            cases after
            cases h
        | cons r rest =>
            cases rest with
            | nil =>
                cases after
                cases h
            | cons r' rest =>
                cases after
                exact shape _ _ _ _ _ _ same rfl
      rw [List.cons_append, single, ih, List.cons_append]
  | case3 =>
      rw [List.nil_append, joinReals]
      · rfl
      · intro whole first at_ fraction last more same after
        cases same
        cases h

theorem stripBracesWords {ts stripped : List Token} (h : stripBraces ts = .ok stripped)
    (words : ∀ t ∈ stripped, t.inName = true) : ∀ t ∈ ts, t.inName = true := by
  fun_induction stripBraces ts with
  | case1 => simp
  | case2 t rest opens none =>
      cases h
      exact words
  | case3 t rest opens inside closer after cut ih =>
      obtain ⟨u, closes, kept⟩ := bindIsOk.mp h
      obtain ⟨rfl, -, -⟩ := splitClosingFound cut
      cases ends : after.isEmpty with
      | false =>
          simp only [ends, Bool.false_eq_true, if_false] at kept
          cases kept
          exact words
      | true =>
          simp only [ends, if_true] at kept
          obtain rfl : after = [] := List.isEmpty_iff.mp ends
          have last : closer.word? = some (.closing .brace) := checkClosingOk.mp closes
          intro t' member
          simp only [List.mem_cons, List.mem_append, List.not_mem_nil, or_false] at member
          rcases member with rfl | within | rfl
          · simp [Token.inName, tokenOpens opens, Word.inName]
          · exact ih kept t' within
          · simp [Token.inName, last, Word.inName]
  | case4 t rest other =>
      cases h
      exact words

theorem cutAtFound {α : Type} {test : α → Bool} {as front back : List α} {a : α}
    (h : cutAt test as = some (front, a, back)) : test a = true ∧ as = front ++ a :: back := by
  induction as generalizing front with
  | nil => cases h
  | cons b rest ih =>
      unfold cutAt at h
      split at h
      · rename_i here
        cases h
        exact ⟨here, rfl⟩
      · obtain ⟨⟨_, _, _⟩, later, same⟩ := Option.map_eq_some_iff.mp h
        cases same
        obtain ⟨here, rfl⟩ := ih later
        exact ⟨here, rfl⟩

theorem splitOnceFound {α : Type} [Lexical α] {w : Word} {as front back : List α}
    (h : splitOnce w as = some (front, back)) :
    ∃ sep, word? sep = some w ∧ as = front ++ sep :: back := by
  obtain ⟨⟨_, sep, _⟩, cut, same⟩ := Option.map_eq_some_iff.mp h
  cases same
  obtain ⟨here, rfl⟩ := cutAtFound cut
  exact ⟨sep, of_decide_eq_true here, rfl⟩

theorem parseAtomWord {asSubscript : Bool} {ts : List Token} {n : Name}
    (h : parseAtom asSubscript ts = .ok n) : ∀ t ∈ ts, t.inName = true := by
  unfold parseAtom at h
  split at h
  · cases h
  · rename_i t
    intro t' member
    obtain rfl := List.mem_singleton.mp member
    split at h
    · simp [Token.inName, *, Word.inName]
    · simp [Token.inName, *, Word.inName]
    · simp [Token.inName, *, Word.inName]
    · cases h
  · cases h

theorem parseNameWords {limit : Nat} {asSubscript : Bool} {ts : List Token} {n : Name}
    (h : parseName limit asSubscript ts = .ok n) : ∀ t ∈ ts, t.inName = true := by
  induction limit generalizing asSubscript ts n with
  | zero => cases h
  | succ limit ih =>
      unfold parseName at h
      obtain ⟨stripped, strips, h⟩ := bindIsOk.mp h
      refine stripBracesWords strips ?_
      split at h
      · exact parseAtomWord h
      · rename_i base sub cut
        obtain ⟨b, first, h⟩ := bindIsOk.mp h
        obtain ⟨s, second, -⟩ := bindIsOk.mp h
        obtain ⟨u, word, rfl⟩ := splitOnceFound cut
        intro t member
        rcases List.mem_append.mp member with before | later
        · exact ih first t before
        · rcases List.mem_cons.mp later with rfl | after
          · simp [Token.inName, show t.word? = _ from word, Word.inName]
          · exact ih second t after

theorem separatesNotInName (h : w.separates = true) :
    (Token.plain w place).inName = false := by
  unfold Word.separates at h
  simp only [Bool.and_eq_true, Bool.not_eq_eq_eq_not, Bool.not_true] at h
  exact h.1

theorem separatesStarts (h : w.separates = true) : startsName (.plain w place) = false := by
  cases w <;> first | rfl | cases h

theorem separatesOpens (h : w.separates = true) : (Token.plain w place).opens .brace = false := by
  cases w with
  | opening b => cases b <;> first | rfl | cases h
  | _ => rfl

theorem takeSubscriptsOther {u : Token} (other : u.word? ≠ some .underscore) (rest : List Token) :
    takeSubscripts (u :: rest) = .ok ([], u :: rest) := by
  cases rest <;> rw [takeSubscripts, if_neg other]

theorem takeSubscriptsNone (h : w.separates = true) (ys : List Token) :
    takeSubscripts (.plain w place :: ys) = .ok ([], .plain w place :: ys) := by
  have other : (Token.plain w place).word? ≠ some .underscore := by
    rintro ⟨⟩
    cases h
  exact takeSubscriptsOther other ys

theorem takeSubscriptsJoined (h : w.separates = true) {xs subs after : List Token}
    (taken : takeSubscripts xs = .ok (subs, after)) (ys : List Token) :
    takeSubscripts (xs ++ .plain w place :: ys) = .ok (subs, after ++ .plain w place :: ys) := by
  fun_induction takeSubscripts xs generalizing subs after with
  | case1 =>
      cases taken
      exact takeSubscriptsNone h ys
  | case2 => cases taken
  | case3 => cases taken
  | case4 u isUnder t rest opens inside closer tail cut ih =>
      obtain ⟨_, closes, taken⟩ := bindIsOk.mp taken
      obtain ⟨⟨more, last⟩, found, same⟩ := bindIsOk.mp taken
      cases same
      rw [List.cons_append, List.cons_append, takeSubscripts, if_pos isUnder, if_pos opens]
      split
      · rename_i none
        rw [splitClosingLonger cut] at none
        cases none
      · rename_i other
        rw [splitClosingLonger cut] at other
        cases other
        rw [closes, bindOk, ih found]
        rfl
  | case5 u isUnder t rest opens ih =>
      obtain ⟨⟨more, last⟩, found, same⟩ := bindIsOk.mp taken
      cases same
      rw [List.cons_append, List.cons_append, takeSubscripts, if_pos isUnder, if_neg opens,
        ih found]
      rfl
  | case6 u rest other =>
      cases taken
      exact takeSubscriptsOther other _

theorem takeSubscriptsParted (h : w.separates = true) {xs ys subs after : List Token}
    (taken : takeSubscripts (xs ++ .plain w place :: ys) = .ok (subs, after))
    (words : ∀ t ∈ subs, t.inName = true) :
    ∃ front, takeSubscripts xs = .ok (subs, front) ∧ after = front ++ .plain w place :: ys := by
  have outside := @separatesNotInName w place h
  fun_induction takeSubscripts xs generalizing subs after with
  | case1 =>
      rw [List.nil_append, takeSubscriptsNone h] at taken
      cases taken
      exact ⟨[], rfl, rfl⟩
  | case2 u isUnder =>
      rw [List.cons_append, List.nil_append, takeSubscripts, if_pos isUnder,
        if_neg (by simp [separatesOpens h])] at taken
      obtain ⟨⟨more, last⟩, found, same⟩ := bindIsOk.mp taken
      cases same
      cases outside.symm.trans (words _ (by simp))
  | case3 u isUnder t rest opens none =>
      rw [List.cons_append, List.cons_append, takeSubscripts, if_pos isUnder, if_pos opens]
        at taken
      split at taken
      · cases taken
      · rename_i inside closer tail cut
        obtain ⟨_, -, taken⟩ := bindIsOk.mp taken
        obtain ⟨⟨more, last⟩, -, same⟩ := bindIsOk.mp taken
        cases same
        obtain ⟨depth, opened⟩ := splitClosingNone none
        rw [splitClosingOver opened] at cut
        obtain ⟨⟨outer, _, _⟩, later, same⟩ := Option.map_eq_some_iff.mp cut
        cases same
        obtain ⟨whole, -, -⟩ := splitClosingFound later
        cases outer with
        | nil =>
            obtain ⟨rfl, rfl⟩ := List.cons.inj whole
            cases outside.symm.trans (words _ (by simp))
        | cons v outer =>
            obtain ⟨rfl, rfl⟩ := List.cons.inj whole
            cases outside.symm.trans (words _ (by simp))
  | case4 u isUnder t rest opens inside closer tail cut ih =>
      rw [List.cons_append, List.cons_append, takeSubscripts, if_pos isUnder, if_pos opens]
        at taken
      split at taken
      · rename_i none
        rw [splitClosingLonger cut] at none
        cases none
      · rename_i other
        rw [splitClosingLonger cut] at other
        cases other
        obtain ⟨_, closes, taken⟩ := bindIsOk.mp taken
        obtain ⟨⟨more, last⟩, found, same⟩ := bindIsOk.mp taken
        cases same
        obtain ⟨front, first, same⟩ := ih found fun t member => words t (by simp [member])
        exact ⟨front, by rw [closes, bindOk, first]; rfl, same⟩
  | case5 u isUnder t rest opens ih =>
      rw [List.cons_append, List.cons_append, takeSubscripts, if_pos isUnder, if_neg opens]
        at taken
      obtain ⟨⟨more, last⟩, found, same⟩ := bindIsOk.mp taken
      cases same
      obtain ⟨front, first, same⟩ := ih found fun t member => words t (by simp [member])
      exact ⟨front, by rw [first]; rfl, same⟩
  | case6 u rest other =>
      rw [List.cons_append, takeSubscriptsOther other] at taken
      cases taken
      exact ⟨u :: rest, rfl, rfl⟩

theorem gatherNamesOther {t : Token} (other : startsName t = false) (rest : List Token) :
    gatherNames (t :: rest) = do return .token t :: (← gatherNames rest) := by
  rw [gatherNames, if_neg (by simp [other])]

theorem gatherNamesName {t : Token} {rest subs after : List Token}
    (starts : startsName t = true) (taken : takeSubscripts rest = .ok (subs, after)) :
    gatherNames (t :: rest) = do
      let name ← parseName subscriptDepth false (t :: subs)
      let last := (t :: subs).getLast (List.cons_ne_nil t subs)
      return .name name (t.span.through last.span) :: (← gatherNames after) := by
  rw [gatherNames, if_pos starts]
  split
  · rename_i fails
    rw [taken] at fails
    cases fails
  · rename_i found
    rw [taken] at found
    cases found
    rfl

theorem gatherNamesRead {t : Token} {rest : List Token} {ps : List Piece}
    (starts : startsName t = true) (h : gatherNames (t :: rest) = .ok ps) :
    ∃ subs after, takeSubscripts rest = .ok (subs, after) ∧
      ∃ name, parseName subscriptDepth false (t :: subs) = .ok name := by
  rw [gatherNames, if_pos starts] at h
  split at h
  · cases h
  · rename_i subs after taken
    obtain ⟨name, named, -⟩ := bindIsOk.mp h
    exact ⟨subs, after, taken, name, named⟩

theorem gatherNamesJoined (h : w.separates = true) {xs ys : List Token} {as bs : List Piece}
    (first : gatherNames xs = .ok as) (second : gatherNames ys = .ok bs) :
    gatherNames (xs ++ .plain w place :: ys) = .ok (as ++ .token (.plain w place) :: bs) := by
  fun_induction gatherNames xs generalizing as with
  | case1 =>
      cases first
      rw [List.nil_append, gatherNamesOther (separatesStarts h), second]
      rfl
  | case2 => cases first
  | case3 t rest starts subs after taken ih =>
      obtain ⟨name, named, first⟩ := bindIsOk.mp first
      obtain ⟨more, later, same⟩ := bindIsOk.mp first
      cases same
      rw [List.cons_append, gatherNamesName starts (takeSubscriptsJoined h taken ys), named,
        bindOk, ih later]
      rfl
  | case4 t rest other ih =>
      obtain ⟨more, later, same⟩ := bindIsOk.mp first
      cases same
      rw [List.cons_append, gatherNamesOther (by simpa using other), ih later]
      rfl

theorem gatherNamesParted (h : w.separates = true) {xs ys : List Token} {ps : List Piece}
    (gathered : gatherNames (xs ++ .plain w place :: ys) = .ok ps) :
    ∃ as bs, gatherNames xs = .ok as ∧ gatherNames ys = .ok bs ∧
      ps = as ++ .token (.plain w place) :: bs := by
  generalize size : xs.length = n
  induction n using Nat.strongRecOn generalizing xs ps with
  | ind n ih =>
      cases xs with
      | nil =>
          rw [List.nil_append, gatherNamesOther (separatesStarts h)] at gathered
          obtain ⟨bs, second, same⟩ := bindIsOk.mp gathered
          cases same
          exact ⟨[], bs, by simp [gatherNames], second, rfl⟩
      | cons t rest =>
          rw [List.cons_append] at gathered
          cases starts : startsName t with
          | false =>
              rw [gatherNamesOther starts] at gathered
              obtain ⟨more, later, same⟩ := bindIsOk.mp gathered
              cases same
              obtain ⟨as, bs, first, second, rfl⟩ := ih rest.length (by simp [← size]) later rfl
              exact ⟨.token t :: as, bs, by rw [gatherNamesOther starts, first]; rfl, second, rfl⟩
          | true =>
              obtain ⟨subs, after, taken, name, named⟩ := gatherNamesRead starts gathered
              rw [gatherNamesName starts taken, named, bindOk] at gathered
              obtain ⟨more, later, same⟩ := bindIsOk.mp gathered
              cases same
              have words := parseNameWords named
              obtain ⟨front, before, rfl⟩ := takeSubscriptsParted h taken fun t member =>
                words t (List.mem_cons_of_mem _ member)
              have shorter := takeSubscriptsLength before
              simp only [List.length_cons] at size
              obtain ⟨as, bs, first, second, rfl⟩ := ih front.length (by omega) later rfl
              exact ⟨_ :: as, bs, by rw [gatherNamesName starts before, named, bindOk, first]; rfl,
                second, rfl⟩

end Separated

def named (ts : List Token) : Parsed (List Piece) := gatherNames (joinReals ts)

theorem namedNothing : named [] = .ok [] := by simp [named, joinReals, gatherNames]

theorem namedSeparated {w : Word} {place : Span} (h : w.separates = true) {xs ys : List Token}
    {ps : List Piece} : named (xs ++ .plain w place :: ys) = .ok ps ↔
      ∃ as bs, named xs = .ok as ∧ named ys = .ok bs ∧
        ps = as ++ .token (.plain w place) :: bs := by
  unfold named
  rw [joinRealsSeparated h]
  constructor
  · exact gatherNamesParted h
  · rintro ⟨as, bs, first, second, rfl⟩
    exact gatherNamesJoined h first second

theorem namedParenthesized {place : Span} {xs inside ys : List Token} {ps : List Piece} :
    named (xs ++ parenthesized place inside ++ ys) = .ok ps ↔
      ∃ as cs bs, named xs = .ok as ∧ named inside = .ok cs ∧ named ys = .ok bs ∧
        ps = as ++ bracketed place cs ++ bs := by
  have form : xs ++ parenthesized place inside ++ ys = xs ++ .plain (.opening .paren) place
      :: (inside ++ .plain (.closing .paren) place :: ys) := by simp [parenthesized]
  rw [form, namedSeparated rfl]
  constructor
  · rintro ⟨as, rest, before, more, rfl⟩
    obtain ⟨cs, bs, inner, after, rfl⟩ := (namedSeparated rfl).mp more
    exact ⟨as, cs, bs, before, inner, after, by simp [bracketed]⟩
  · rintro ⟨as, cs, bs, before, inner, after, rfl⟩
    exact ⟨as, _, before, (namedSeparated rfl).mpr ⟨cs, bs, inner, after, rfl⟩, by simp [bracketed]⟩

def quotient (place : Span) (sign : Sign) (first second : List Token) : List Token :=
  parenthesized place first ++ .plain (.sign sign) place :: parenthesized place second

theorem namedQuotient {place : Span} {sign : Sign} {xs first second ys : List Token}
    {ps : List Piece} : named (xs ++ quotient place sign first second ++ ys) = .ok ps ↔
      ∃ as cs ds bs, named xs = .ok as ∧ named first = .ok cs ∧ named second = .ok ds ∧
        named ys = .ok bs ∧ ps = as ++ spliced place sign cs ds ++ bs := by
  have form : xs ++ quotient place sign first second ++ ys = xs ++ parenthesized place first
      ++ ([] ++ .plain (.sign sign) place :: ([] ++ parenthesized place second ++ ys)) := by
    simp [quotient]
  rw [form, namedParenthesized]
  constructor
  · rintro ⟨as, cs, rest, before, inner, more, rfl⟩
    obtain ⟨_, last, none, later, rfl⟩ := (namedSeparated rfl).mp more
    obtain ⟨_, ds, bs, none', inner', after, rfl⟩ := namedParenthesized.mp later
    obtain rfl := Except.ok.inj (none.symm.trans namedNothing)
    obtain rfl := Except.ok.inj (none'.symm.trans namedNothing)
    exact ⟨as, cs, ds, bs, before, inner, inner', after, by simp [spliced]⟩
  · rintro ⟨as, cs, ds, bs, before, inner, inner', after, rfl⟩
    have later : named ([] ++ parenthesized place second ++ ys) = .ok _ :=
      namedParenthesized.mpr ⟨[], ds, bs, namedNothing, inner', after, rfl⟩
    exact ⟨as, cs, _, before, inner, (namedSeparated rfl).mpr ⟨[], _, namedNothing, later, rfl⟩,
      by simp [spliced]⟩

end LiterateMath
