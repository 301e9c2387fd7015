-- What is written reads back: the lines of values that a line can tell, read one by one into cells
-- of their types, store the same values again, and after them the input is at its end.
import Quadlang.Proofs.Machine.Reads
import Quadlang.Proofs.Text.Characters
import Quadlang.Proofs.Text.Numbers

namespace Quadlang

/-! ## Values that a line tells -/

namespace Value

/-- A value that a line tells, with the type that it is read as: an integer, a truth value, a
character that is neither the end of a line nor the replacement character, or a string in which no
line ends and that does not end as a line may. -/
inductive Legible : Value → Ty → Prop
  | int (n : Int64) : Legible (.int n) .int
  | bool (b : Bool) : Legible (.bool b) .bool
  | char {c : Int32} : 0 ≤ c → Text.isScalar c.toNatClampNeg = true → c ≠ 10 → c ≠ 13 →
      c.toNatClampNeg ≠ Text.replacement → Legible (.char c) .char
  | string {s : Bytes} : '\n'.toUInt8 ∉ s → s.getLast? ≠ some '\r'.toUInt8 →
    Legible (.string s) .string

variable {v : Value} {ty : Ty}

theorem Legible.ne_invalid (h : v.Legible ty) : ty ≠ .invalid := by
  cases h <;> simp

/-- The text of such a value is one line that nothing is trimmed off. -/
theorem Legible.line (h : v.Legible ty) :
    '\n'.toUInt8 ∉ v.text ∧ v.text.getLast? ≠ some '\r'.toUInt8 := by
  have hsolid : ∀ {b : Bytes}, '\n'.toUInt8 ∉ b → '\r'.toUInt8 ∉ b →
      '\n'.toUInt8 ∉ b ∧ b.getLast? ≠ some '\r'.toUInt8 :=
    fun hnewline hreturn => ⟨hnewline, fun hlast => hreturn (List.mem_of_getLast? hlast)⟩
  cases h with
  | int n =>
    refine hsolid (fun hmem => ?_) (fun hmem => ?_) <;>
      rcases Bytes.mem_ofInt hmem with heq | hdigit <;> simp_all +decide
  | bool b => cases b <;> decide
  | @char c hc hscalar hnewline hreturn hreplacement =>
    have hbound : c.toNatClampNeg < 0x110000 := by
      simp only [Text.isScalar, Bool.or_eq_true, Bool.and_eq_true, decide_eq_true_eq] at hscalar
      omega
    -- A byte below those that only continue a character is the character itself.
    have hbyte : ∀ b : UInt8, b.toNat < 0x80 → b ∈ Text.encode c.toNatClampNeg →
      c = .ofNat b.toNat := by
      intro b hb hmem
      rcases Text.mem_encode hbound hmem with heq | hhigh
      · rw [heq, Int32.ofNat_toNatClampNeg c hc]
      · omega
    rw [show (Value.char c).text = Text.encode c.toNatClampNeg from if_pos ⟨hc, hscalar⟩]
    exact hsolid (fun hmem => hnewline (hbyte _ (by decide) hmem))
      (fun hmem => hreturn (hbyte _ (by decide) hmem))
  | string hnewline hreturn => exact ⟨hnewline, hreturn⟩

/-- Such a value reads back from its text. -/
theorem Legible.read_text (h : v.Legible ty) : read ty v.text = .ok v := by
  cases h with
  | int n => rw [text, read, Decimal.readInt_ofWord]
  | bool b => cases b <;> rfl
  | @char c hc hscalar hnewline hreturn hreplacement =>
    have hdecode := Text.decode?_encode hscalar []
    rw [List.append_nil] at hdecode
    rw [show (Value.char c).text = Text.encode c.toNatClampNeg from if_pos ⟨hc, hscalar⟩,
      read, hdecode]
    simp only [if_neg hreplacement, Int32.ofNat_toNatClampNeg c hc]
  | string hnewline hreturn => rfl

end Value

/-! ## Lines -/

open Success

namespace Execute

variable {im : Image} {m : Machine} {s rest : Bytes} {a : Addr} {v : Value} {ty : Ty} {o : Operand}

theorem splitLine_append (h : '\n'.toUInt8 ∉ s) :
    splitLine (s ++ '\n'.toUInt8 :: rest) = (s ++ ['\n'.toUInt8], rest) := by
  have hall : ∀ b ∈ s, decide (b ≠ '\n'.toUInt8) = true :=
    fun b hb => decide_eq_true fun heq => h (heq ▸ hb)
  unfold splitLine
  simp only [List.dropWhile_append_of_pos hall, List.takeWhile_append_of_pos hall]
  simp

theorem trimLine_append (hnewline : '\n'.toUInt8 ∉ s) (hreturn : s.getLast? ≠ some '\r'.toUInt8) :
    trimLine (s ++ ['\n'.toUInt8]) = s := by
  unfold trimLine
  rw [List.reverse_concat, List.dropWhile_cons_of_pos (by decide)]
  cases hs : s.reverse with
  | nil => exact (List.reverse_eq_nil_iff.1 hs).symm
  | cons b r =>
    obtain rfl : s = r.reverse ++ [b] := by rw [← List.reverse_reverse s, hs, List.reverse_cons]
    simp only [List.getLast?_concat, List.mem_append, List.mem_singleton, not_or, ne_eq,
      Option.some.injEq] at hreturn hnewline
    rw [List.dropWhile_cons_of_neg (by simp [hreturn, Ne.symm hnewline.2]), List.reverse_cons]

/-- Storing a value at a located address changes memory only, whatever the input is. Outside of any
call it sets a cell of the program. -/
theorem store_located (h : im.typeOf a ≠ .invalid) (v : Value) (m : Machine) : ∃ globals frames,
    (∀ input, store im a v { m with input } = .ok () { m with input, globals, frames }) ∧
      (m.frames = [] → frames = [] ∧ globals = m.globals.insert a v) := by
  obtain ⟨s, hs⟩ : ∃ s, im.table.locate? a = some s := by
    refine Option.ne_none_iff_exists'.1 fun hnone => h ?_
    rw [Image.typeOf, hnone]
    rfl
  have hglobal : ∃ globals frames, (∀ input, (modify fun m => m.setGlobal a v : Execute PUnit)
    { m with input } =
      .ok () { m with input, globals, frames }) ∧
      (m.frames = [] → frames = [] ∧ globals = m.globals.insert a v) :=
    ⟨_, m.frames, fun _ => rfl, fun h => ⟨h, rfl⟩⟩
  have hcurrent : ∃ globals frames, (∀ input, (modify fun m => m.setCurrent a v : Execute PUnit)
    { m with input } =
      .ok () { m with input, globals, frames }) ∧
      (m.frames = [] → frames = [] ∧ globals = m.globals.insert a v) := by
    obtain ⟨ip, steps, globals, frames, pending, indices, input, output, room⟩ := m
    cases frames with
    | nil => exact hglobal
    | cons f rest => exact ⟨globals, _, fun _ => rfl, fun h => absurd h (List.cons_ne_nil f rest)⟩
  simp only [store, hs]
  cases s.segment with
  | functions => exact hcurrent
  | temps => exact hcurrent
  | stack => exact hcurrent
  | _ => exact hglobal

/-- Reading the line of a value that a line tells stores the value. -/
theorem read_line (h : v.Legible (im.typeOf a))
    (hinput : m.input = v.text ++ '\n'.toUInt8 :: rest) :
    read im (.cell a) m = store im a v { m with input := rest } := by
  obtain ⟨hnewline, hreturn⟩ := h.line
  rw [read_eq (address_cell a m), hinput, splitLine_append hnewline]
  simp only [trimLine_append hnewline hreturn, h.read_text]
  exact if_neg (by simp)

theorem load_same {m' : Machine} (hglobals : m'.globals = m.globals)
    (hframes : m'.frames = m.frames) (h : load o m = .ok v m) : load o m' = .ok v m' := by
  have hget : m'.get? = m.get? := by
    funext a
    rw [Machine.get?, Machine.get?, hglobals, hframes]
  have hlook : (address o >>= cell) m = .ok v m → (address o >>= cell) m' = .ok v m' := by
    intro h
    obtain ⟨a, m₁, ha, hcell⟩ := bind_eq_ok.1 h
    obtain ⟨rfl, hreach⟩ := address_eq_ok ha
    rw [← Machine.reach?_congr fun _ => congrFun hget _] at hreach
    rw [bind_of_ok (address_of_reach? hreach)]
    cases hv : m₁.get? a with
    | none =>
      rw [cell_of_none hv] at hcell
      cases hcell
    | some w =>
      rw [cell_of_get? hv] at hcell
      cases hcell
      exact cell_of_get? ((congrFun hget a).trans hv)
  unfold load at h ⊢
  cases hkind : o.kind with
  | address | pointer =>
    simp only [hkind] at h ⊢
    exact hlook h
  | literal =>
    simp only [hkind] at h ⊢
    cases h
    rfl
  | _ =>
    simp only [hkind] at h
    cases h

/-! ## Transfers -/

/-- A value that an operand denotes, and the address that it shall come back to. -/
structure Transfer where
  source : Operand
  target : Addr
  value : Value

variable {lines : List Transfer}

/-- The lines of values. -/
def Transfer.text (t : Transfer) : Bytes := t.value.text ++ ['\n'.toUInt8]

/-- Writing values one after the other adds their lines to what was written. -/
theorem write_lines (hloads : ∀ t ∈ lines, load t.source m = .ok t.value m)
    (hroom : ∀ n, m.room = some n → lines.length ≤ n) :
    ∃ m', forM lines (fun t => write t.source) m = .ok () m' ∧
      m'.written = m.written ++ lines.flatMap Transfer.text := by
  induction lines generalizing m with
  | nil => exact ⟨m, rfl, (List.append_nil _).symm⟩
  | cons t lines ih =>
    obtain ⟨hload, hloads⟩ := List.forall_mem_cons.1 hloads
    have hwrite := write_eq hload
    rw [if_neg (fun hfull => absurd (hroom 0 hfull) (by simp))] at hwrite
    rw [List.forM_cons, bind_of_ok hwrite]
    obtain ⟨m', hrun, hwritten⟩ := ih (m := { m with
      output := (t.value.text ++ ascii "\n") :: m.output, room := m.room.map (· - 1) })
      (fun u hu => load_same (m := m) rfl rfl (hloads u hu)) (by
        intro n hn
        obtain ⟨k, hk, rfl⟩ := Option.map_eq_some_iff.1 hn
        have := hroom k hk
        rw [List.length_cons] at this
        omega)
    refine ⟨m', hrun, ?_⟩
    rw [hwritten]
    simp [Machine.written, Transfer.text, show ascii "\n" = ['\n'.toUInt8] from rfl]

/-- Reading the lines of values stores the values in order. Outside of any call they come to be in
the cells of the program. -/
theorem read_lines (hlegible : ∀ t ∈ lines, t.value.Legible (im.typeOf t.target)) (m : Machine) :
    ∃ globals frames,
      forM lines (fun t => read im (.cell t.target))
        { m with input := lines.flatMap Transfer.text } =
          .ok () { m with input := [], globals, frames } ∧
        forM lines (fun t => store im t.target t.value) m = .ok () { m with globals, frames } ∧
          (m.frames = [] → frames = [] ∧
            globals = lines.foldl (fun cells t => cells.insert t.target t.value) m.globals) := by
  induction lines generalizing m with
  | nil => exact ⟨m.globals, m.frames, rfl, rfl, fun h => ⟨h, rfl⟩⟩
  | cons t lines ih =>
    obtain ⟨ht, hlegible⟩ := List.forall_mem_cons.1 hlegible
    obtain ⟨globals₁, frames₁, hstore, hout₁⟩ := store_located ht.ne_invalid t.value m
    obtain ⟨globals, frames, hreads, hstores, hout⟩ :=
      ih hlegible { m with globals := globals₁, frames := frames₁ }
    have hread : read im (.cell t.target) { m with input := (t :: lines).flatMap Transfer.text } =
      _ :=
      (read_line ht (by simp [Transfer.text])).trans (hstore (lines.flatMap Transfer.text))
    refine ⟨globals, frames, ?_, ?_, ?_⟩
    · rw [List.forM_cons, bind_of_ok hread]
      exact hreads
    · rw [List.forM_cons, bind_of_ok (hstore m.input)]
      exact hstores
    · intro h
      obtain ⟨rfl, rfl⟩ := hout₁ h
      exact hout rfl

/-- Reading undoes writing. Values that a line tells can be written, and what was written for them,
read into cells of their types, stores the same values in order and is then at its end, so that one
more reading fails. -/
theorem read_undoes_write {w r : Machine} (hloads : ∀ t ∈ lines, load t.source w = .ok t.value w)
    (hroom : ∀ n, w.room = some n → lines.length ≤ n)
    (hlegible : ∀ t ∈ lines, t.value.Legible (im.typeOf t.target)) :
    ∃ w' out r', forM lines (fun t => write t.source) w = .ok () w' ∧
      w'.written = w.written ++ out ∧
      forM lines (fun t => read im (.cell t.target)) { r with input := out } = .ok () r' ∧
      forM lines (fun t => store im t.target t.value) { r with input := [] } = .ok () r' ∧
      (r.frames = [] → r' = { r with
        input := [], globals :=
          lines.foldl (fun cells t => cells.insert t.target t.value) r.globals }) ∧
      r'.input = [] ∧ ∀ a, ∃ cause, read im (.cell a) r' = .error cause r' ∧
      cause.category = some .badInput := by
  obtain ⟨w', hwrites, hwritten⟩ := write_lines hloads hroom
  obtain ⟨globals, frames, hreads, hstores, hout⟩ := read_lines hlegible { r with input := [] }
  refine ⟨w', _, _, hwrites, hwritten, hreads, hstores, fun h => ?_, rfl, fun a =>
    ⟨.endOfInput, ?_, rfl⟩⟩
  · obtain ⟨rfl, rfl⟩ := hout h
    rw [h]
  · rw [read_eq (address_cell a _)]
    rfl

/-- A string with a mark inside that may end a line, a character of four bytes, the least integer
and a truth value, to come back to cells of their types. -/
def notes : List Transfer :=
  [⟨.cell 1, 30, .string (ascii " a\r b")⟩, ⟨.cell 2, 20, .char 0x1F600⟩,
    ⟨.cell 3, 10, .int (-0x8000000000000000)⟩, ⟨.cell 4, 40, .bool false⟩]

theorem notes_read_back :
    let im : Image := ⟨#[], ⟨#[⟨.locals, .int, 10, 19⟩, ⟨.locals, .char, 20, 29⟩,
      ⟨.locals, .string, 30, 39⟩, ⟨.locals, .bool, 40, 49⟩]⟩, 1⟩
    let w : Machine :=
      { ip := 0, globals := .ofList [(1, .string (ascii " a\r b")), (2, .char 0x1F600),
      (3, .int (-0x8000000000000000)), (4, .bool false)], input := [], room := some 4 }
    let r : Machine := { ip := 0, globals := Cells.empty, input := [] }
    (∀ t ∈ notes, load t.source w = .ok t.value w ∧ t.value.Legible (im.typeOf t.target)) ∧
      ∃ w' r', forM notes (fun t => write t.source) w = .ok () w' ∧
        forM notes (fun t => read im (.cell t.target)) { r with input := w'.written } = .ok () r' ∧
        ∀ t ∈ notes, r'.get? t.target = some t.value := by
  intro im w r
  have hloads : ∀ t ∈ notes, load t.source w = .ok t.value w := by
    have hget : ∀ t ∈ notes, t.source = .cell t.source.word ∧
      w.get? t.source.word = some t.value := by
      decide +kernel
    intro t ht
    rw [(hget t ht).1, load_cell]
    exact cell_of_get? (hget t ht).2
  have hlegible : ∀ t ∈ notes, t.value.Legible (im.typeOf t.target) := by
    have htypes : notes.map (fun t => im.typeOf t.target) = [.string, .char, .int, .bool] := by
      decide +kernel
    simp only [notes, List.map_cons, List.map_nil, List.cons.injEq, and_true] at htypes
    simp only [notes, List.forall_mem_cons, htypes]
    exact ⟨.string (by decide) (by decide), .char (by decide) (by decide) (by decide) (by decide)
      (by decide), .int _, .bool _, by simp⟩
  obtain ⟨w', out, r', hwrites, hwritten, hreads, -, houtside, -⟩ :=
    read_undoes_write (r := r) hloads (by rintro n ⟨⟩; decide) hlegible
  refine ⟨fun t ht => ⟨hloads t ht, hlegible t ht⟩, w', r', hwrites, ?_, ?_⟩
  · rw [hwritten]
    exact hreads
  · rw [houtside rfl]
    decide +kernel

end Execute

end Quadlang
