-- Finding the owner of an address: in a layout whose ranges do not overlap the table finds
-- the one range that holds the address, as a look at range after range does.
import Mathlib.Data.List.Nodup
import Mathlib.Data.List.Pairwise
import Quadlang.Memory.Layout

namespace Quadlang

variable {s t : Slot} {a : Addr}

/-! ## Layouts without overlaps -/

namespace Slot

theorem contains_iff : s.contains a = true ↔ s.low.toInt ≤ a.toInt ∧ a.toInt ≤ s.high.toInt := by
  simp [contains, Int64.le_iff_toInt_le]

/-- One range lies before another. -/
def Before (s t : Slot) : Prop := s.high < t.low

instance (s t : Slot) : Decidable (s.Before t) := inferInstanceAs (Decidable (s.high < t.low))

theorem before_iff : s.Before t ↔ s.high.toInt < t.low.toInt := Int64.lt_iff_toInt_lt

end Slot

/-- No range of the layout is empty, no two of them overlap, and no two have one owner. -/
structure Layout.Disjoint (l : Layout) : Prop where
  nonempty : ∀ s ∈ l.slots, s.low ≤ s.high
  apart : l.slots.Pairwise fun s t => s.Before t ∨ t.Before s
  owners : l.slots.Pairwise fun s t => s.segment ≠ t.segment ∨ s.ty ≠ t.ty

instance (l : Layout) : Decidable l.Disjoint :=
  decidable_of_iff (_ ∧ _ ∧ _) ⟨fun h => ⟨h.1, h.2.1, h.2.2⟩, fun h => ⟨h.1, h.2, h.3⟩⟩

theorem Layout.standard_disjoint : Layout.standard.Disjoint := by decide +kernel

namespace Layout.Disjoint

variable {l : Layout}

instance : Std.Symm fun s t : Slot => s.Before t ∨ t.Before s := ⟨fun _ _ => Or.symm⟩

instance : Std.Symm fun s t : Slot => s.segment ≠ t.segment ∨ s.ty ≠ t.ty :=
  ⟨fun _ _ => Or.imp Ne.symm Ne.symm⟩

section

variable (h : l.Disjoint) (hs : s ∈ l.slots) (ht : t ∈ l.slots)

include h hs ht

/-- Two ranges with an address between the ends of both are one. -/
theorem eq_of_meet (hst : s.low.toInt ≤ t.high.toInt) (hts : t.low.toInt ≤ s.high.toInt) :
    s = t := by
  apply Decidable.byContradiction
  intro hne
  have := h.apart.forall hs ht hne
  rw [Slot.before_iff, Slot.before_iff] at this
  omega

theorem eq_of_contains (hsa : s.contains a = true) (hta : t.contains a = true) : s = t := by
  rw [Slot.contains_iff] at hsa hta
  exact h.eq_of_meet hs ht (by omega) (by omega)

theorem eq_of_owner (hsegment : s.segment = t.segment) (hty : s.ty = t.ty) : s = t :=
  Decidable.byContradiction fun hne => (h.owners.forall hs ht hne).elim (absurd hsegment)
  (absurd hty)

end

theorem nodup (h : l.Disjoint) : l.slots.Nodup :=
  h.owners.imp fun hne heq => hne.elim (absurd (congrArg _ heq)) (absurd (congrArg _ heq))

theorem table_sorted (h : l.Disjoint) : l.table.slots.toList.Pairwise Slot.Before := by
  have hperm : l.table.slots.toList.Perm l.slots := List.mergeSort_perm _ _
  have hsorted : l.table.slots.toList.Pairwise fun s t => s.low ≤ t.low := by
    have := @List.pairwise_mergeSort _ (fun s t : Slot => decide (s.low ≤ t.low))
      (by simp only [decide_eq_true_eq]; intro a b c; exact Int64.le_trans)
      (by simp only [Bool.or_eq_true, decide_eq_true_eq]; intro a b; exact Int64.le_total _ _)
      l.slots
    simpa [Layout.table] using this
  have hapart : l.table.slots.toList.Pairwise fun s t => s.Before t ∨ t.Before s :=
    (hperm.pairwise_iff (fun h => h.symm)).2 h.apart
  rw [List.pairwise_iff_getElem] at hsorted hapart ⊢
  intro i j hi hj hij
  have hlow := hsorted i j hi hj hij
  have hne := h.nonempty _ (hperm.subset (List.getElem_mem hi))
  have hne' := h.nonempty _ (hperm.subset (List.getElem_mem hj))
  rcases hapart i j hi hj hij with hbefore | hbefore
  · exact hbefore
  · rw [Slot.before_iff] at hbefore
    rw [Int64.le_iff_toInt_le] at hlow hne hne'
    omega

end Layout.Disjoint

/-! ## Search -/

namespace Table

/-- In a table in ascending order the search ends at the first range that does not lie before
the address. -/
theorem search_spec (t : Table) (ht : t.slots.toList.Pairwise Slot.Before)
    (hne : ∀ s ∈ t.slots, s.low ≤ s.high) (a : Addr) (start stop : Nat)
    (within : stop ≤ t.slots.size) (hss : start ≤ stop) :
    start ≤ t.search a start stop within ∧ t.search a start stop within ≤ stop ∧
      (∀ i (hi : i < t.slots.size), start ≤ i → i < t.search a start stop within →
        t.slots[i].high < a) ∧
      (∀ i (hi : i < t.slots.size), t.search a start stop within ≤ i → i < stop →
        a ≤ t.slots[i].high) := by
  have hmono : ∀ i j (hi : i < t.slots.size) (hj : j < t.slots.size), i < j →
      t.slots[i].high.toInt < t.slots[j].high.toInt := by
    intro i j hi hj hij
    have hb := List.pairwise_iff_getElem.1 ht i j (by simpa using hi) (by simpa using hj) hij
    have hn := hne _ (Array.getElem_mem hj)
    rw [Slot.before_iff] at hb
    rw [Int64.le_iff_toInt_le] at hn
    simp only [Array.getElem_toList] at hb
    omega
  fun_induction search t a start stop within with
  | case1 start stop within h middle hle ih =>
    obtain ⟨h₁, h₂, h₃, h₄⟩ := ih (by omega)
    refine ⟨h₁, by omega, h₃, ?_⟩
    intro i hi hki his
    by_cases him : i < middle
    · exact h₄ i hi hki him
    · rw [Int64.le_iff_toInt_le] at hle ⊢
      rcases Nat.lt_or_eq_of_le (Nat.not_lt.1 him) with hlt | rfl
      · have := hmono middle i (by omega) hi hlt
        omega
      · exact hle
  | case2 start stop within h middle hle ih =>
    obtain ⟨h₁, h₂, h₃, h₄⟩ := ih (by omega)
    refine ⟨by omega, h₂, ?_, h₄⟩
    intro i hi hsi hik
    by_cases him : middle < i
    · exact h₃ i hi him hik
    · rw [Int64.not_le, Int64.lt_iff_toInt_lt] at hle
      rw [Int64.lt_iff_toInt_lt]
      rcases Nat.lt_or_eq_of_le (Nat.not_lt.1 him) with hlt | rfl
      · have := hmono i middle hi (by omega) hlt
        omega
      · exact hle
  | case3 start stop within h =>
    refine ⟨Nat.le_refl _, hss, ?_, ?_⟩
    · intro i hi h₁ h₂
      omega
    · intro i hi h₁ h₂
      omega

end Table

/-- The table of a layout without overlaps finds the range that holds an address. -/
theorem Layout.Disjoint.locate?_table {l : Layout} (h : l.Disjoint) :
    l.table.locate? a = some s ↔ s ∈ l.slots ∧ s.contains a = true := by
  have hmem : ∀ s, s ∈ l.table.slots ↔ s ∈ l.slots := by
    intro s
    rw [← Array.mem_toList_iff]
    exact (List.mergeSort_perm _ _).mem_iff
  have hne : ∀ s ∈ l.table.slots, s.low ≤ s.high := by
    intro s hs
    exact h.nonempty s ((hmem s).1 hs)
  obtain ⟨-, hk, hbefore, hafter⟩ :=
    l.table.search_spec h.table_sorted hne a 0 l.table.slots.size (Nat.le_refl _) (Nat.zero_le _)
  unfold Table.locate?
  generalize l.table.search a 0 l.table.slots.size (Nat.le_refl _) = k at hk hbefore hafter
  constructor
  · intro hs
    split at hs
    · rename_i t ht
      obtain ⟨hkl, rfl⟩ := Array.getElem?_eq_some_iff.1 ht
      split at hs
      · rename_i hlow
        cases hs
        refine ⟨(hmem _).1 (Array.getElem_mem hkl), ?_⟩
        simp only [Slot.contains, Bool.and_eq_true, decide_eq_true_eq]
        exact ⟨hlow, hafter k hkl (Nat.le_refl _) hkl⟩
      · cases hs
    · cases hs
  · rintro ⟨hs, ha⟩
    obtain ⟨i, hi, rfl⟩ := Array.mem_iff_getElem.1 ((hmem s).2 hs)
    rw [Slot.contains_iff] at ha
    have hik : k ≤ i := by
      apply Nat.not_lt.1
      intro hik
      have := hbefore i hi (Nat.zero_le _) hik
      rw [Int64.lt_iff_toInt_lt] at this
      omega
    have hkl : k < l.table.slots.size := Nat.lt_of_le_of_lt hik hi
    have hka := hafter k hkl (Nat.le_refl _) hkl
    rcases Nat.lt_or_eq_of_le hik with hlt | rfl
    · have hb := List.pairwise_iff_getElem.1 h.table_sorted k i (by simpa using hkl)
        (by simpa using hi) hlt
      rw [Slot.before_iff] at hb
      rw [Int64.le_iff_toInt_le] at hka
      simp only [Array.getElem_toList] at hb
      omega
    · rw [Array.getElem?_eq_getElem hi]
      simp [Int64.le_iff_toInt_le, ha.1]

/-! ## The order of the ranges -/

namespace Layout.Disjoint

variable {l l' : Layout}

theorem mem_of_locate? (h : l.locate? a = some s) : s ∈ l.slots ∧ s.contains a = true := by
  have hcontains := List.find?_some h
  exact ⟨List.mem_of_find?_eq_some h, hcontains⟩

/-- A look at range after range finds the range that holds an address. -/
theorem locate?_eq_some (h : l.Disjoint) :
    l.locate? a = some s ↔ s ∈ l.slots ∧ s.contains a = true := by
  refine ⟨mem_of_locate?, ?_⟩
  rintro ⟨hs, ha⟩
  cases hfind : l.locate? a with
  | none => exact absurd ha (List.find?_eq_none.1 hfind s hs)
  | some t =>
    obtain ⟨ht, hta⟩ := mem_of_locate? hfind
    rw [h.eq_of_contains ht hs hta ha]

theorem perm (h : l.Disjoint) (hperm : l.slots.Perm l'.slots) : l'.Disjoint where
  nonempty := fun s hs => h.nonempty s (hperm.mem_iff.2 hs)
  apart := (hperm.pairwise_iff Or.symm).1 h.apart
  owners := (hperm.pairwise_iff (Or.imp Ne.symm Ne.symm)).1 h.owners

/-- The table does not depend on the order of the ranges. -/
theorem table_perm (h : l.Disjoint) (hperm : l.slots.Perm l'.slots) : l.table = l'.table := by
  have hsorted : l.table.slots.toList.Perm l.slots := List.mergeSort_perm _ _
  have hsorted' : l'.table.slots.toList.Perm l'.slots := List.mergeSort_perm _ _
  have hslots : l.table.slots.toList = l'.table.slots.toList := by
    refine List.Perm.eq_of_pairwise ?_ h.table_sorted (h.perm hperm).table_sorted
      ((hsorted.trans hperm).trans hsorted'.symm)
    intro s t hs ht hst hts
    have hne := h.nonempty s (hsorted.mem_iff.1 hs)
    have hne' := (h.perm hperm).nonempty t (hsorted'.mem_iff.1 ht)
    rw [Slot.before_iff] at hst hts
    rw [Int64.le_iff_toInt_le] at hne hne'
    omega
  exact congrArg Table.mk (Array.toList_inj.1 hslots)

end Layout.Disjoint

/-- Whatever the order of the ranges, their table is the same and finds for each address the range
that a look at range after range finds, or none if that finds none. -/
theorem table_finds_owner {l l' : Layout} (h : l.Disjoint) (hperm : l.slots.Perm l'.slots) :
    l.table = l'.table ∧ ∀ a, l.table.locate? a = l.locate? a ∧
      l.table.locate? a = l'.locate? a := by
  have hfinds : ∀ {k : Layout}, k.Disjoint → ∀ a, k.table.locate? a = k.locate? a := by
    intro k hk a
    ext s
    rw [hk.locate?_table, hk.locate?_eq_some]
  refine ⟨h.table_perm hperm, fun a => ⟨hfinds h a, ?_⟩⟩
  rw [h.table_perm hperm]
  exact hfinds (h.perm hperm) a

/-- Ranges in no order: one that ends at the last address, one below zero, and one of a single
address. -/
def scattered : Layout :=
  ⟨[⟨.temps, .int, 0x7FFFFFFFFFFFFFFE, 0x7FFFFFFFFFFFFFFF⟩, ⟨.globals, .int, -5, -1⟩,
  ⟨.locals, .bool, 7, 7⟩]⟩

theorem table_finds_owner_scattered :
    let reversed : Layout := ⟨scattered.slots.reverse⟩
    scattered.Disjoint ∧ scattered.table = reversed.table ∧
      scattered.table.locate? 7 = some ⟨.locals, .bool, 7, 7⟩ ∧
        scattered.table.locate? (-6) = none := by
  have hdisjoint : scattered.Disjoint := by decide
  obtain ⟨htable, hfinds⟩ := @table_finds_owner scattered ⟨scattered.slots.reverse⟩ hdisjoint
    (List.reverse_perm _).symm
  exact ⟨hdisjoint, htable, (hfinds 7).1.trans (by decide), (hfinds (-6)).2.trans (by decide)⟩

end Quadlang
