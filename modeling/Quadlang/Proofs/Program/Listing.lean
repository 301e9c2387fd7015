-- The plain listing of a program tells its instructions: columns and lines can be told apart
-- whatever stands in them, so that one listing belongs to one row of instructions.
import Quadlang.Program
import Quadlang.Proofs.Text.Numbers

namespace Quadlang

open Token (newline isDigit)

/-! ## Columns -/

namespace Bytes

variable {s t r u : Bytes} {sep : UInt8} {width : Nat}

/-- The blank between columns. -/
def blank : UInt8 := ' '.toUInt8

/-- A text that is not empty and has neither blanks nor line ends. -/
def Solid (s : Bytes) : Prop := s ≠ [] ∧ ∀ c ∈ s, c ≠ blank ∧ c ≠ newline

instance (s : Bytes) : Decidable s.Solid := @instDecidableAnd _ _ _ (List.decidableBAll _ s)

theorem Solid.append (hs : s.Solid) (ht : t.Solid) : (s ++ t).Solid :=
  ⟨by simp [hs.1], List.forall_mem_append.2 ⟨hs.2, ht.2⟩⟩

theorem Solid.not_mem (h : s.Solid) (hsep : sep = blank ∨ sep = newline) : sep ∉ s := by
  intro hmem
  rcases hsep with rfl | rfl
  · exact (h.2 _ hmem).1 rfl
  · exact (h.2 _ hmem).2 rfl

/-- What stands in front of the first separator, and what behind it. -/
theorem append_inj_of_not_mem (hs : sep ∉ s) (ht : sep ∉ t) (h : s ++ sep :: r = t ++ sep :: u) :
    s = t ∧ r = u := by
  induction s generalizing t with
  | nil =>
    cases t with
    | nil => exact ⟨rfl, (List.cons.inj h).2⟩
    | cons d t =>
      obtain ⟨rfl, -⟩ := List.cons.inj h
      exact absurd List.mem_cons_self ht
  | cons c s ih =>
    cases t with
    | nil =>
      obtain ⟨rfl, -⟩ := List.cons.inj h
      exact absurd List.mem_cons_self hs
    | cons d t =>
      obtain ⟨rfl, hrest⟩ := List.cons.inj h
      obtain ⟨rfl, hr⟩ := ih (List.not_mem_of_not_mem_cons hs)
        (List.not_mem_of_not_mem_cons ht) hrest
      exact ⟨rfl, hr⟩

theorem padLeft_inj (hsep : sep = blank ∨ sep = newline) (hs : s.Solid) (ht : t.Solid)
    (h : padLeft width s ++ sep :: r = padLeft width t ++ sep :: u) : s = t ∧ r = u := by
  have hdrop : ∀ {s r : Bytes}, s.Solid →
      (padLeft width s ++ sep :: r).dropWhile (· = blank) = s ++ sep :: r := by
    intro s r hs
    obtain ⟨c, s', rfl⟩ := List.exists_cons_of_ne_nil hs.1
    rw [padLeft, List.append_assoc, List.dropWhile_append_of_pos (by simp [blank])]
    exact List.dropWhile_cons_of_neg (by simpa using (hs.2 c List.mem_cons_self).1)
  refine append_inj_of_not_mem (hs.not_mem hsep) (ht.not_mem hsep) ?_
  rw [← hdrop hs, h, hdrop ht]

theorem padRight_inj (hs : s.Solid) (ht : t.Solid)
    (h : padRight width s ++ blank :: r = padRight width t ++ blank :: u) : s = t ∧ r = u := by
  have hmove : ∀ s r : Bytes, padRight width s ++ blank :: r =
      s ++ blank :: (List.replicate (width - s.length) blank ++ r) := by
    intro s r
    rw [padRight, List.append_assoc, ← List.singleton_append,
      ← List.append_assoc (List.replicate ..),
      ← blank, ← List.replicate_succ', List.replicate_succ, List.cons_append]
  rw [hmove, hmove] at h
  obtain ⟨rfl, h⟩ := append_inj_of_not_mem (hs.not_mem (.inl rfl)) (ht.not_mem (.inl rfl)) h
  exact ⟨rfl, List.append_cancel_left h⟩

theorem ascii_blank : ascii " " = [blank] := rfl

theorem ascii_newline : ascii "\n" = [newline] := rfl

theorem solid_ofInt (i : Int) : (ofInt i).Solid := by
  refine ⟨?_, fun c hc => ?_⟩
  · cases i with
    | ofNat n => exact ofNat_ne_nil
    | negSucc n => exact List.cons_ne_nil _ _
  · rcases mem_ofInt hc with rfl | hc
    · decide
    · constructor
      all_goals
        rintro rfl
        exact absurd hc (by decide)

end Bytes

open Bytes

/-! ## Instructions -/

theorem Opcode.named_or_other (op : Opcode) : op ∈ named ∨ ∃ code, op = .other code := by
  cases op with
  | other code => exact .inr ⟨code, rfl⟩
  | arith op | compare op | logic op => cases op <;> exact .inl (by decide)
  | _ => exact .inl (by decide)

theorem Opcode.name_solid (op : Opcode) : op.name.Solid := by
  rcases op.named_or_other with hop | ⟨code, rfl⟩
  · exact (by decide +kernel : ∀ op ∈ named, op.name.Solid) op hop
  · exact (Solid.append (by decide) (solid_ofInt _)).append (by decide)

theorem Opcode.name_inj {op op' : Opcode} (h : op.name = op'.name) : op = op' := by
  -- The names of instructions are in capitals, and a number without a name is not.
  have hcapital : ∀ op ∈ named, op.name.head? ≠ some 'o'.toUInt8 := by decide +kernel
  rcases op.named_or_other with hop | ⟨code, rfl⟩ <;> rcases op'.named_or_other with
    hop' | ⟨code', rfl⟩
  · exact (by decide +kernel : ∀ op ∈ named, ∀ op' ∈ named, op.name = op'.name → op = op') op hop
      op' hop' h
  · exact absurd (by rw [h]; rfl) (hcapital op hop)
  · exact absurd (by rw [← h]; rfl) (hcapital op' hop')
  · have hcode := ofInt_inj (List.append_cancel_left (List.append_cancel_right h))
    rw [Int64.toInt_inj.1 hcode]

namespace Operand

/-- Operands that are read in one way and have one number. An empty place has none to speak of. -/
def Same (o o' : Operand) : Prop := o.kind = o'.kind ∧ (o.kind ≠ .empty → o.value = o'.value)

theorem text_solid (o : Operand) : o.text.Solid := by
  unfold text
  split
  · decide
  · exact solid_ofInt _
  · exact (Solid.append (by decide) (solid_ofInt _)).append (by decide)
  · exact Solid.append (by decide) (solid_ofInt _)
  · exact Solid.append (by decide) (solid_ofInt _)
  · refine ((((Solid.append (by decide) (solid_ofInt _)).append ?_).append (solid_ofInt _)).append
      ?_) <;> decide

/-- A number for each way to read an operand. -/
def Kind.rank : Kind → Nat
  | .empty => 0
  | .address => 1
  | .pointer => 2
  | .label => 3
  | .literal => 4
  | .other _ => 5

/-- The way to read an operand, by its text. -/
def rankOf (b : Bytes) : Nat :=
  if b = ascii "-" then 0
  else if b.head? = some '('.toUInt8 then 2
  else if b.head? = some '@'.toUInt8 then 3
  else if b.head? = some '#'.toUInt8 then 4
  else if b.head? = some 'o'.toUInt8 then 5
  else 1

theorem rankOf_text (o : Operand) : rankOf o.text = o.kind.rank := by
  obtain ⟨kind, value⟩ := o
  cases kind with
  | address =>
    have hne : ofInt value ≠ ascii "-" := by
      cases value with
      | ofNat n =>
        intro h
        have hmem : '-'.toUInt8 ∈ ofInt (Int.ofNat n) := h ▸ List.mem_cons_self
        exact minus_not_mem_ofNat hmem
      | negSucc n => exact fun h => ofNat_ne_nil (List.cons.inj h).2
    have hhead : ∀ c, (c ≠ '-'.toUInt8 ∧ isDigit c = false) → (ofInt value).head? ≠ some c := by
      rintro c ⟨hminus, hdigit⟩ h
      rcases mem_ofInt (List.mem_of_mem_head? h) with rfl | hc
      · exact hminus rfl
      · rw [hdigit] at hc
        cases hc
    show rankOf (ofInt value) = 1
    rw [rankOf, if_neg hne, if_neg (hhead '('.toUInt8 (by decide)),
      if_neg (hhead '@'.toUInt8 (by decide)),
      if_neg (hhead '#'.toUInt8 (by decide)), if_neg (hhead 'o'.toUInt8 (by decide))]
  | _ => rfl

theorem same_of_text {o o' : Operand} (h : o.text = o'.text) : o.Same o' := by
  have hrank : o.kind.rank = o'.kind.rank := by rw [← rankOf_text, h, rankOf_text]
  obtain ⟨kind, value⟩ := o
  obtain ⟨kind', value'⟩ := o'
  cases kind <;> cases kind' <;> try cases hrank
  · exact ⟨rfl, fun hne => absurd rfl hne⟩
  · exact ⟨rfl, fun _ => ofInt_inj h⟩
  · exact ⟨rfl, fun _ => ofInt_inj (List.append_cancel_left (List.append_cancel_right h))⟩
  · exact ⟨rfl, fun _ => ofInt_inj (List.append_cancel_left h)⟩
  · exact ⟨rfl, fun _ => ofInt_inj (List.append_cancel_left h)⟩
  · have hcolon : ∀ i, ':'.toUInt8 ∉ ofInt i := fun i hmem => by
      rcases mem_ofInt hmem with heq | hdigit
      · exact absurd heq (by decide)
      · exact absurd hdigit (by decide)
    simp only [text, List.append_assoc] at h
    obtain ⟨hcode, hvalue⟩ := append_inj_of_not_mem (hcolon _) (hcolon _)
      (List.append_cancel_left h)
    rw [Int8.toInt_inj.1 (ofInt_inj hcode)]
    exact ⟨rfl, fun _ => ofInt_inj (List.append_cancel_right hvalue)⟩

end Operand

/-- Instructions with one opcode and the same operands. -/
structure Quad.Same (q q' : Quad) : Prop where
  op : q.op = q'.op
  arg1 : q.arg1.Same q'.arg1
  arg2 : q.arg2.Same q'.arg2
  res : q.res.Same q'.res

/-- The text of an instruction tells it, and where its line ends. -/
theorem Quad.same_of_text {q q' : Quad} {r r' : Bytes}
    (h : q.text ++ newline :: r = q'.text ++ newline :: r') : q.Same q' ∧ r = r' := by
  simp only [text, List.append_assoc, ascii_blank, List.singleton_append] at h
  obtain ⟨hop, h⟩ := padRight_inj (Opcode.name_solid _) (Opcode.name_solid _) h
  obtain ⟨harg1, h⟩ := padLeft_inj (.inl rfl) (Operand.text_solid _) (Operand.text_solid _) h
  obtain ⟨harg2, h⟩ := padLeft_inj (.inl rfl) (Operand.text_solid _) (Operand.text_solid _) h
  obtain ⟨hres, h⟩ := padLeft_inj (.inr rfl) (Operand.text_solid _) (Operand.text_solid _) h
  exact ⟨⟨Opcode.name_inj hop, Operand.same_of_text harg1, Operand.same_of_text harg2,
    Operand.same_of_text hres⟩, h⟩

/-! ## Listings -/

namespace Program

theorem listingLine_append (i : Nat) (q : Quad) (r : Bytes) :
    listingLine i q ++ r = padLeft 4 (ofNat i) ++ (ascii "  " ++ (q.text ++ newline :: r)) := by
  simp [listingLine, ascii_newline]

/-- The lines of as many instructions tell them one by one. -/
theorem same_of_lines {qs qs' : List Quad} (hlength : qs.length = qs'.length) {i : Nat}
    (h : ((qs.zipIdx i).map fun (q, i) => listingLine i q).flatten =
      ((qs'.zipIdx i).map fun (q, i) => listingLine i q).flatten) {k : Nat} {q q' : Quad}
    (hq : qs[k]? = some q) (hq' : qs'[k]? = some q') : q.Same q' := by
  induction qs generalizing qs' i k with
  | nil => cases hq
  | cons q₀ qs ih =>
    obtain ⟨q₀', qs', rfl⟩ := List.exists_cons_of_length_eq_add_one hlength.symm
    simp only [List.zipIdx_cons, List.map_cons, List.flatten_cons, listingLine_append] at h
    obtain ⟨hsame, hrest⟩ := Quad.same_of_text (List.append_cancel_left (List.append_cancel_left h))
    cases k with
    | zero =>
      cases hq
      cases hq'
      exact hsame
    | succ k => exact ih (Nat.succ.inj hlength) hrest hq hq'

/-- Programs of one name with one listing have as many instructions and constants, and at each
position the same instruction. -/
theorem listing_determines {p p' : Program} (hname : p.name = p'.name)
    (h : p.listing = p'.listing) :
    p.quads.size = p'.quads.size ∧ p.consts.size = p'.consts.size ∧
      ∀ (i : Nat) (q q' : Quad), p.quads[i]? = some q → p'.quads[i]? = some q' → q.Same q' := by
  have hquadruples : ascii " quadruples, " = ' '.toUInt8 :: ascii "quadruples, " := by decide
  have hconstants : ascii " constants\n" = ' '.toUInt8 :: ascii "constants\n" := by decide
  have hblank : ∀ n, ' '.toUInt8 ∉ ofNat n := fun n => (solid_ofInt n).not_mem (.inl rfl)
  simp only [listing, listingHead, hname, List.append_assoc, hquadruples, hconstants,
    List.cons_append] at h
  obtain ⟨hquads, h⟩ := append_inj_of_not_mem (hblank _) (hblank _)
    (List.append_cancel_left (List.append_cancel_left (List.append_cancel_left h)))
  obtain ⟨hconsts, h⟩ := append_inj_of_not_mem (hblank _) (hblank _) (List.append_cancel_left h)
  refine ⟨ofNat_inj hquads, ofNat_inj hconsts, fun i q q' hq hq' => ?_⟩
  rw [← Array.getElem?_toList] at hq hq'
  exact same_of_lines (ofNat_inj hquads) (List.append_cancel_left h) hq hq'

/-- An instruction of an unknown operation with overlong operands, and a number where there is no
operand. -/
def unusual (value : Int64) : Program :=
  ⟨ascii "p", #[⟨.other (-1), ⟨.empty, value.toInt⟩, ⟨.literal, -0x8000000000000000⟩,
    ⟨.other 9, 123456789⟩⟩], .standard, Cells.empty⟩

/-- What an empty operand holds does not show, and is all that may differ. -/
theorem unusual_same : (unusual 0).listing = (unusual 7).listing ∧ ∀ (i : Nat) (q q' : Quad),
    (unusual 0).quads[i]? = some q → (unusual 7).quads[i]? = some q' → q.Same q' := by
  have h : (unusual 0).listing = (unusual 7).listing := by decide +kernel
  exact ⟨h, (@listing_determines (unusual 0) (unusual 7) rfl h).2.2⟩

end Program

end Quadlang
