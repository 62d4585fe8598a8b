import LiterateMath.Proofs.Reading

/-! What stands next to a stretch of pieces decides whether it stands alone. Calls that are made
around it make no difference, nor does anything beyond a bracket, a comma or a keyword that
encloses it. -/
namespace LiterateMath

open Lexical

theorem depthOther {p : Piece} (expecting : Bool) {depth last : Nat}
    (opens : ∀ b, p.role expecting ≠ .opening b) (closes : ∀ b, p.role expecting ≠ .closing b)
    (h : bracketStep depth p = some last) : last = depth := by
  have same := bracketStepOther (a := p) (fun b word => opens b (roleOfWord word _))
    (fun b word => closes b (roleOfWord word _)) depth
  exact (Option.some.inj (same.symm.trans h)).symm

theorem pendingOver {depth last : Nat} {p : Piece} (h : bracketStep depth p = some last)
    {front : List (Option Operation)} (size : front.length = depth + 1) (expecting : Bool) :
    ∃ front' expecting', front'.length = last + 1 ∧ ∀ base,
      Pending.step ⟨front ++ base, expecting⟩ p = ⟨front' ++ base, expecting'⟩ := by
  obtain ⟨top, front, rfl⟩ := List.exists_cons_of_length_eq_add_one size
  cases role : p.role expecting with
  | operand o =>
      obtain rfl := depthOther expecting (by simp [role]) (by simp [role]) h
      exact ⟨top :: front, false, size, fun base => by simp [Pending.step, role]⟩
  | opening b =>
      have deeper := bracketStepOpening (a := p) (wordOfRole.1 b role) depth
      obtain rfl : depth + 1 = last := Option.some.inj (deeper.symm.trans h)
      exact ⟨none :: top :: front, true, by simpa using size, fun base => by
        simp [Pending.step, role]⟩
  | closing b =>
      have closes : word? p = some (.closing b) := wordOfRole.2 b role
      cases depth with
      | zero => simp [bracketStep, closes] at h
      | succ depth =>
          have shallower := bracketStepClosing closes depth
          obtain rfl : depth = last := Option.some.inj (shallower.symm.trans h)
          exact ⟨front, false, by simpa using size, fun base => by simp [Pending.step, role]⟩
  | operation op =>
      obtain rfl := depthOther expecting (by simp [role]) (by simp [role]) h
      exact ⟨some op :: front, true, size, fun base => by simp [Pending.step, role]⟩
  | stray fault =>
      obtain rfl := depthOther expecting (by simp [role]) (by simp [role]) h
      exact ⟨none :: front, true, size, fun base => by simp [Pending.step, role]⟩

theorem pendingAllOver {depth last : Nat} {ps : List Piece} (h : openAfter depth ps = some last)
    {front : List (Option Operation)} (size : front.length = depth + 1) (expecting : Bool) :
    ∃ front' expecting', front'.length = last + 1 ∧ ∀ base,
      ps.foldl Pending.step ⟨front ++ base, expecting⟩ = ⟨front' ++ base, expecting'⟩ := by
  induction ps generalizing depth front expecting with
  | nil =>
      cases h
      exact ⟨front, expecting, size, fun base => rfl⟩
  | cons p ps ih =>
      obtain ⟨next, step, later⟩ := Option.bind_eq_some_iff.mp h
      obtain ⟨middle, expects, size', steps⟩ := pendingOver step size expecting
      obtain ⟨front', expecting', size'', runs⟩ := ih later size' expects
      exact ⟨front', expecting', size'', fun base => by rw [List.foldl_cons, steps, runs]⟩

def Encloses (p : Piece) : Prop :=
  ∀ pending : Pending, ∃ outer, pending.step p = ⟨none :: outer, true⟩

theorem opensEncloses {p : Piece} {b : Bracket} (h : p.word? = some (.opening b)) : Encloses p :=
  fun pending => ⟨pending.operations, by
    have role : p.role pending.expecting = .opening b := roleOfWord h _
    simp [Pending.step, role]⟩

theorem strayEncloses {p : Piece} (h : ∀ expecting, ∃ fault, p.role expecting = .stray fault) :
    Encloses p := by
  intro pending
  obtain ⟨fault, role⟩ := h pending.expecting
  exact ⟨pending.operations.tail, by simp [Pending.step, role]⟩

theorem commaStray {p : Piece} (h : p.word? = some .comma) (expecting : Bool) :
    ∃ fault, p.role expecting = .stray fault := ⟨_, roleOfWord h expecting⟩

theorem keywordStray {p : Piece} {k : Keyword} (h : p.word? = some (.keyword k))
    (expecting : Bool) : ∃ fault, p.role expecting = .stray fault := ⟨_, roleOfWord h expecting⟩

theorem lastWithin {lead inner : List Piece} {sep : Piece} (encloses : Encloses sep)
    {depth : Nat} (h : openAfter 0 inner = some depth) :
    (Pending.after (lead ++ sep :: inner)).last? = (Pending.after inner).last? := by
  obtain ⟨front, expecting, size, runs⟩ := @pendingAllOver _ _ _ h [none] rfl true
  obtain ⟨outer, enters⟩ := encloses (Pending.after lead)
  have within : Pending.after (lead ++ sep :: inner) = ⟨front ++ outer, expecting⟩ := by
    rw [← runs outer]
    unfold Pending.after at enters ⊢
    rw [List.foldl_append, List.foldl_cons, enters]
    rfl
  have alone : Pending.after inner = ⟨front, expecting⟩ := by
    have whole := runs []
    rw [List.append_nil, List.append_nil] at whole
    exact whole
  obtain ⟨top, front, rfl⟩ := List.exists_cons_of_length_eq_add_one size
  rw [within, alone]
  rfl

theorem Called.pending {parse : List Piece → Parsed Expr} {ps qs : List Piece}
    (h : Called parse ps qs) (pending : Pending) :
    ps.foldl Pending.step pending = qs.foldl Pending.step pending := by
  induction h generalizing pending with
  | nil => rfl
  | @call f place opener closer inside after qs args opens balanced closes _ _ ih =>
      obtain ⟨front, expecting, size, runs⟩ :=
        @pendingAllOver _ _ _ balanced [none] rfl true
      obtain ⟨top, rfl⟩ := List.length_eq_one_iff.mp size
      have enters : (pending.step (.name f place)).step opener
          = ⟨[none] ++ pending.operations, true⟩ := by
        have role : opener.role false = .opening .paren := roleOfWord opens _
        have named : pending.step (.name f place) = ⟨pending.operations, false⟩ := rfl
        rw [named]
        simp [Pending.step, role]
      have leaves : Pending.step ⟨[top] ++ pending.operations, expecting⟩ closer
          = pending.step (.call f args (place.through closer.span)) := by
        have role : closer.role expecting = .closing .paren := roleOfWord closes _
        have called : pending.step (.call f args (place.through closer.span))
            = ⟨pending.operations, false⟩ := rfl
        rw [called]
        simp [Pending.step, role]
      rw [List.foldl_cons, List.foldl_cons, enters, List.foldl_append, runs, List.foldl_cons,
        leaves, ih, List.foldl_cons]
  | other _ _ ih => rw [List.foldl_cons, List.foldl_cons, ih]

theorem Called.undisturbed {parse : List Piece → Parsed Expr} {ps qs : List Piece}
    (h : Called parse ps qs) (op : Operation) (depth : Nat) (expecting : Bool) :
    undisturbed op depth expecting ps = LiterateMath.undisturbed op depth expecting qs := by
  induction h generalizing depth expecting with
  | nil => rfl
  | call => rfl
  | other _ _ ih => simp only [LiterateMath.undisturbed, ih]

theorem undisturbedWithin {op : Operation} {outer rest : List Piece} {sep : Piece}
    (ends : ∀ expecting, undisturbed op 0 expecting (sep :: rest) = true) {base depth : Nat}
    {expecting : Bool} (h : openAfter (base + depth) outer = some 0) :
    undisturbed op depth expecting (outer ++ sep :: rest)
      = undisturbed op depth expecting outer := by
  induction outer generalizing depth expecting with
  | nil =>
      obtain ⟨rfl, rfl⟩ : base = 0 ∧ depth = 0 := by
        have flat : base + depth = 0 := Option.some.inj h
        omega
      exact ends expecting
  | cons p outer ih =>
      obtain ⟨next, step, later⟩ := Option.bind_eq_some_iff.mp h
      rw [List.cons_append]
      cases role : p.role expecting with
      | operand o => simp only [undisturbed, role]
      | opening b =>
          have deeper := bracketStepOpening (a := p) (wordOfRole.1 b role) (base + depth)
          obtain rfl : base + depth + 1 = next := Option.some.inj (deeper.symm.trans step)
          simp only [undisturbed, role]
          exact ih later
      | closing b =>
          have closes : word? p = some (.closing b) := wordOfRole.2 b role
          cases depth with
          | zero => simp [undisturbed, role]
          | succ depth =>
              have outside := bracketStepClosing closes (base + depth)
              obtain rfl : base + depth = next := Option.some.inj (outside.symm.trans step)
              simp [undisturbed, role, ih later]
      | operation op' =>
          obtain rfl := depthOther expecting (by simp [role]) (by simp [role]) step
          cases op' with
          | unary u => simp only [undisturbed, role]
          | binary c => simp only [undisturbed, role, ih later]
      | stray fault => simp only [undisturbed, role]

theorem commaFront {before inner : List Piece}
    (h : before = inner ∨ ∃ lead sep, word? sep = some .comma ∧ before = lead ++ sep :: inner) :
    before = inner ∨ ∃ lead sep, Encloses sep ∧ before = lead ++ sep :: inner := by
  obtain same | ⟨lead, sep, word, form⟩ := h
  · exact .inl same
  · exact .inr ⟨lead, sep, strayEncloses (commaStray word), form⟩

def Ends (p : Piece) : Prop :=
  ∀ op expecting rest, undisturbed op 0 expecting (p :: rest) = true

theorem closesEnds {p : Piece} {b : Bracket} (h : p.word? = some (.closing b)) : Ends p := by
  intro op expecting rest
  have role : p.role expecting = .closing b := roleOfWord h _
  simp [undisturbed, role]

theorem strayEnds {p : Piece} (h : ∀ expecting, ∃ fault, p.role expecting = .stray fault) :
    Ends p := by
  intro op expecting rest
  obtain ⟨fault, role⟩ := h expecting
  simp [undisturbed, role]

theorem commaBack {after outer : List Piece}
    (h : after = outer ∨ ∃ sep rest, word? sep = some .comma ∧ after = outer ++ sep :: rest) :
    after = outer ∨ ∃ sep rest, Ends sep ∧ after = outer ++ sep :: rest := by
  obtain same | ⟨sep, rest, word, form⟩ := h
  · exact .inl same
  · exact .inr ⟨sep, rest, strayEnds (commaStray word), form⟩

theorem keywordBack {after outer : List Piece}
    (h : after = outer ∨
      ∃ sep k rest, word? sep = some (.keyword k) ∧ after = outer ++ sep :: rest) :
    after = outer ∨ ∃ sep rest, Ends sep ∧ after = outer ++ sep :: rest := by
  obtain same | ⟨sep, k, rest, word, form⟩ := h
  · exact .inl same
  · exact .inr ⟨sep, rest, strayEnds (keywordStray word), form⟩

theorem standsAloneWithin {c : Connective} {before after inner middle outer : List Piece}
    (front : before = inner ∨ ∃ lead sep, Encloses sep ∧ before = lead ++ sep :: inner)
    (back : after = outer ∨ ∃ sep rest, Ends sep ∧ after = outer ++ sep :: rest)
    (h : Balanced (inner ++ (middle ++ outer))) (balanced : Balanced middle) :
    standsAlone c before after = standsAlone c inner outer := by
  obtain ⟨depth, opened, later⟩ := openAfterParts h
  rw [balanced.past] at later
  have waits : (Pending.after before).last? = (Pending.after inner).last? := by
    obtain rfl | ⟨lead, sep, encloses, rfl⟩ := front
    · rfl
    · exact lastWithin encloses opened
  have follows : undisturbed (.binary c) 0 false after = undisturbed (.binary c) 0 false outer := by
    obtain rfl | ⟨sep, rest, ends, rfl⟩ := back
    · rfl
    · exact undisturbedWithin (fun expecting => ends _ expecting rest) later
  unfold standsAlone
  rw [waits, follows]

theorem Called.standsAlone {parse : List Piece → Parsed Expr} {c : Connective}
    {before after as bs : List Piece} (h : Called parse before as) (h' : Called parse after bs) :
    LiterateMath.standsAlone c before after = LiterateMath.standsAlone c as bs := by
  unfold LiterateMath.standsAlone Pending.after
  rw [h.pending, h'.undisturbed]

end LiterateMath
