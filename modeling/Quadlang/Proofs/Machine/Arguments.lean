-- What a function is entered with: its record is the one that the call made, and holds for each
-- parameter the value that the argument had when it was passed, and nothing else.
import Quadlang.Proofs.Machine.Calls
import Quadlang.Proofs.Program.CallSites

namespace Quadlang

variable {q : Quad}

variable {quads : List Quad} {i : Nat} {m m' : Machine} {j : Journal}

/-! ## Records in a run -/

/-- How the record of activation `k` came about in the first `n` steps of a run: by an
instruction that made it and others that passed arguments to it, each with the value that its
operand had then. -/
inductive Prepared (quads : List Quad) (run : Nat → Option (Machine × Journal)) (k : Nat) :
    Nat → Begun → Cells → Prop
  | made {n i : Nat} {m : Machine} {j : Journal} :
      run n = some (m, j) → m.ip = i → j.made = k → Prepared quads run k (n + 1)
      { era := i } Cells.empty
  | passed {n n' i : Nat} {c : Begun} {cells : Cells} {m : Machine} {j : Journal} {p : Param}
      {x : Operand} {v : Value} :
      Prepared quads run k n c cells → n ≤ n' → run n' = some (m, j) → m.ip = i →
      j.pending.head? = some k → quads[i]? = some (p.bind x) →
      Execute.load x m.advance = .ok v m.advance →
      Prepared quads run k (n' + 1) { c with params := c.params ++ [i] } (cells.insert p.address v)

/-- The records being prepared where a machine is and where its calls return to. -/
def Machine.begun (quads : List Quad) (m : Machine) : List Begun :=
  Quadlang.begun quads m.ip.toNat ++ m.frames.flatMap fun f => Quadlang.begun quads f.returnTo.toNat

/-- Every record of a machine that was not entered yet came about as the text has it. -/
def Machine.Prepares (quads : List Quad) (run : Nat → Option (Machine × Journal)) (n : Nat)
    (m : Machine) (j : Journal) : Prop :=
  List.Forall₂ (fun (r : Frame × Nat) c => ∃ n' ≤ n, Prepared quads run r.2 n' c r.1.cells)
    (m.pending.zip j.pending) (m.begun quads)

section

variable {run : Nat → Option (Machine × Journal)} {n : Nat}

theorem prepared_succ {rs : List (Frame × Nat)} {cs : List Begun}
    (h : List.Forall₂ (fun r c => ∃ n' ≤ n, Prepared quads run r.2 n' c r.1.cells) rs cs) :
    List.Forall₂ (fun r c => ∃ n' ≤ n + 1, Prepared quads run r.2 n' c r.1.cells) rs cs := by
  refine h.imp ?_
  rintro r c ⟨n', hn', hprepared⟩
  exact ⟨n', Nat.le_succ_of_le hn', hprepared⟩

/-- The newest record is the newest that the text has there. -/
theorem Machine.Prepares.newest {r : Frame} {rest : List Frame} {c : Begun} {cs : List Begun}
    (h : m.Prepares quads run n j) (hpending : m.pending = r :: rest)
    (hbegun : m.begun quads = c :: cs) :
    ∃ k ks, j.pending = k :: ks ∧ (∃ n' ≤ n, Prepared quads run k n' c r.cells) ∧
      List.Forall₂ (fun r c => ∃ n' ≤ n + 1, Prepared quads run r.2 n' c r.1.cells)
        (rest.zip ks) cs := by
  unfold Machine.Prepares at h
  rw [hpending, hbegun] at h
  cases hj : j.pending with
  | nil =>
    rw [hj] at h
    cases h
  | cons k ks =>
    rw [hj] at h
    obtain ⟨hprepared, hrest⟩ := List.forall₂_cons.1 h
    exact ⟨k, ks, rfl, hprepared, prepared_succ hrest⟩

theorem Machine.Prepares.congr {j' : Journal} (h : m.Prepares quads run n j)
    (hpending : m'.pending = m.pending) (hj : j'.pending = j.pending)
    (hbegun : m'.begun quads = m.begun quads) : m'.Prepares quads run (n + 1) j' := by
  unfold Machine.Prepares at h ⊢
  rw [hpending, hj, hbegun]
  exact prepared_succ h

theorem begun_eq_nil {i : Nat} (h : standing quads i = {}) : begun quads i = [] := by
  apply List.length_eq_zero_iff.1
  rw [length_begun, h]
  rfl

theorem flatMap_begun (quads : List Quad)
    (h : m'.frames.map (·.returnTo) = m.frames.map (·.returnTo)) :
    (m'.frames.flatMap fun f => begun quads f.returnTo.toNat) =
      m.frames.flatMap fun f => begun quads f.returnTo.toNat := by
  have hsame := congrArg (List.flatMap fun i : Int => begun quads i.toNat) h
  rwa [List.flatMap_map, List.flatMap_map] at hsame

theorem Machine.begun_congr (hip : m'.ip = m.ip)
    (hreturns : m'.frames.map (·.returnTo) = m.frames.map (·.returnTo)) :
    m'.begun quads = m.begun quads := by
  unfold Machine.begun
  rw [hip, flatMap_begun quads hreturns]

theorem Machine.SoundAt.begun_next (h : m.SoundAt quads i) (hq : quads[i]? = some q)
    (hop : q.op.prepares = false) (hip : m'.ip = m.ip + 1) (hframes : m'.frames = m.frames) :
    m'.begun quads = m.begun quads := by
  have hnow : m.ip.toNat = i := by rw [h.ip]; rfl
  have hnext : m'.ip.toNat = i + 1 := by rw [hip, h.ip]; rfl
  unfold Machine.begun
  rw [hnow, hnext, hframes, begun_keep hq hop]

/-- The machine goes on at another clear position of the same function. -/
theorem Machine.SoundAt.begun_landing (h : m.SoundAt quads i) {target : Nat}
    (hlanding : Landing quads i target) (hip : m'.ip = target)
    (hreturns : m'.frames.map (·.returnTo) = m.frames.map (·.returnTo)) :
    m'.begun quads = m.begun quads := by
  have hnow : m.ip.toNat = i := by rw [h.ip]; rfl
  have hnext : m'.ip.toNat = target := by rw [hip]; rfl
  unfold Machine.begun
  rw [hnow, hnext, begun_eq_nil hlanding.idle, begun_eq_nil hlanding.standing,
    flatMap_begun quads hreturns]

theorem prepares_eq_false_of_stores {op : Opcode} (h : op.stores = true) : op.prepares = false := by
  cases op <;> first | rfl | cases h

/-- What is noted of the records that were not entered yet. -/
theorem Journal.pending_watch (hop : q.op.prepares = false) :
    (j.watch q m m').pending = j.pending := by
  unfold Journal.watch
  cases hk : q.op with
  | era | param | gosub =>
    rw [hk] at hop
    cases hop
  | ret =>
    cases (if q.arg1.kind = .empty then none else m'.frames.head?.bind (·.staged)) <;> rfl
  | endFunction =>
    cases m.frames.head?.bind (·.staged) <;> rfl
  | _ =>
    cases m.reach? q.res with
    | none => rfl
    | some a =>
      simp only
      split
      · cases m'.get? a <;> rfl
      · rfl

/-- What one instruction does to the records of a run. -/
theorem Effect.prepares (hsound : m.SoundAt quads i) (hq : quads[i]? = some q)
    (heffect : Effect quads i m q m') (hrun : run n = some (m, j)) (h : m.Prepares quads run n j) :
    m'.Prepares quads run (n + 1) (j.watch q m m') := by
  have hkeep : q.op.prepares = false → m'.pending = m.pending →
      m'.begun quads = m.begun quads → m'.Prepares quads run (n + 1) (j.watch q m m') :=
    fun hop hpending hbegun => h.congr hpending (Journal.pending_watch hop) hbegun
  have hnext : q.op.prepares = false → ∀ x : Machine, x.ip = m.ip + 1 → x.frames = m.frames →
      x.begun quads = m.begun quads := fun hop x => hsound.begun_next hq hop
  have hnow : m.ip.toNat = i := by rw [hsound.ip]; rfl
  have hafter : (m.ip + 1).toNat = i + 1 := by rw [hsound.ip]; rfl
  -- A call in the text has begun a record.
  have hnewest : (standing quads i).calls ≠ [] → ∃ c cs, Quadlang.begun quads i = c :: cs := by
    intro hcalls
    apply List.exists_cons_of_length_pos
    rw [length_begun]
    exact List.length_pos_iff.2 hcalls
  have hbegun : m.begun quads = Quadlang.begun quads i ++
      m.frames.flatMap fun f => Quadlang.begun quads f.returnTo.toNat := by
    unfold Machine.begun
    rw [hnow]
  cases heffect with
  | store hstores _ _ _ _ _ _ _ =>
    have hop := prepares_eq_false_of_stores hstores
    refine hkeep hop (Machine.pending_put ..) ?_
    rw [Machine.begun_congr (Machine.ip_put ..) (Machine.map_returnTo_put ..)]
    exact hnext hop _ rfl rfl
  | read _ _ _ _ _ =>
    refine hkeep rfl (Machine.pending_put ..) ?_
    rw [Machine.begun_congr (Machine.ip_put ..) (Machine.map_returnTo_put ..)]
    exact hnext rfl _ rfl rfl
  | element _ _ _ =>
    refine hkeep rfl (Machine.pending_put ..) ?_
    rw [Machine.begun_congr (Machine.ip_put ..) (Machine.map_returnTo_put ..)]
    exact hnext rfl _ rfl rfl
  | write | pass | check _ _ => exact hkeep rfl rfl (hnext rfl _ rfl rfl)
  | jump hjump hlanding =>
    have hop : q.op.prepares = false := by rcases hjump with hjump | hjump <;> rw [hjump] <;> rfl
    exact hkeep hop rfl (hsound.begun_landing hlanding rfl rfl)
  | ret hframes _ _ hlanding =>
    refine hkeep rfl rfl (hsound.begun_landing hlanding rfl ?_)
    rw [hframes]
    rfl
  | @leave f r rest hidle hframes _ =>
    refine hkeep rfl ?_ ?_
    · cases r.staged with
      | none => rfl
      | some v => exact Machine.pending_setCurrent ..
    · rw [Machine.begun_congr (Machine.ip_receive ..) (Machine.map_returnTo_receive ..), hbegun,
        begun_eq_nil hidle, hframes]
      rfl
  | @era f =>
    have hmade : Machine.begun quads { m.advance with
      pending := { callee := f.address } :: m.pending } =
        { era := i } :: m.begun quads := by
      show Quadlang.begun quads (m.ip + 1).toNat ++ _ = _
      rw [hafter, begun_succ hq, hbegun]
      rfl
    unfold Machine.Prepares
    rw [hmade]
    exact .cons ⟨n + 1, Nat.le_refl _, .made hrun hsound.ip rfl⟩ (prepared_succ h)
  | @param p x r rest v hcalls hpending hload _ =>
    obtain ⟨c, cs, hc⟩ := hnewest hcalls
    have hpassed : Machine.begun quads { m.advance with
          pending := { r with cells := r.cells.insert p.address v } :: rest } =
        { c with params := c.params ++ [i] } :: (cs ++
          m.frames.flatMap fun f => Quadlang.begun quads f.returnTo.toNat) := by
      show Quadlang.begun quads (m.ip + 1).toNat ++ _ = _
      rw [hafter, begun_succ hq, hc]
      rfl
    have hwatch : (j.watch (p.bind x) m { m.advance with
        pending := { r with cells := r.cells.insert p.address v } :: rest }).pending = j.pending :=
      Journal.pending_write ..
    obtain ⟨k, ks, hj, ⟨n', hn', hprepared⟩, hrest⟩ := h.newest hpending (by rw [hbegun, hc]; rfl)
    unfold Machine.Prepares
    rw [hpassed, hwatch, hj]
    exact .cons ⟨n + 1, Nat.le_refl _,
      .passed hprepared hn' hrun hsound.ip (by rw [hj]; rfl) hq hload⟩ hrest
  | @gosub f r rest calls hcalls hpending _ hentry =>
    obtain ⟨c, cs, hc⟩ := hnewest (by simp [hcalls])
    have hentered : Machine.begun quads { m.advance with
          pending := rest, frames := { r with returnTo := m.advance.ip } :: m.frames,
            ip := f.target } =
        cs ++ m.frames.flatMap fun f => Quadlang.begun quads f.returnTo.toNat := by
      show Quadlang.begun quads f.target ++ (Quadlang.begun quads (m.ip + 1).toNat ++ _) = _
      rw [hafter, begun_eq_nil hentry.standing, begun_succ hq, hc]
      rfl
    obtain ⟨k, ks, hj, -, hrest⟩ := h.newest hpending (by rw [hbegun, hc]; rfl)
    have hwatch : (j.watch f.gosub m { m.advance with
        pending := rest, frames := { r with returnTo := m.advance.ip } :: m.frames,
        ip := f.target }).pending = ks := by
      simp [Journal.watch, Callee.gosub, Journal.enter, hj]
    unfold Machine.Prepares
    rw [hentered, hwatch]
    exact hrest

end

/-- In every state that a compiled program goes through, the records came about as the text has
it. -/
theorem Charted.prepares {p : Program} (hcharted : Charted p) {input : Bytes} {room : Option Nat}
    {depth : Int} {n : Nat}
    (h : p.seen depth input room n = some (m, j)) :
    m.Prepares p.quads.toList (p.seen depth input room) n j := by
  induction n generalizing m j with
  | zero =>
    obtain ⟨rfl, rfl⟩ := Prod.mk.inj (Option.some.inj h)
    obtain ⟨e, hentry, hclear, -⟩ := hcharted.entry
    have hnone : (Machine.start p input room).begun p.quads.toList = [] := by
      show Quadlang.begun p.quads.toList p.entry.toNat ++ [] = []
      rw [hentry, Int.toNat_natCast, begun_eq_nil hclear.standing]
      rfl
    unfold Machine.Prepares
    rw [hnone]
    exact .nil
  | succ n ih =>
    obtain ⟨m₀, j₀, q, i, hbefore, rfl, hsound, -, hq, heffect⟩ :=
      hcharted.watched_succ h
    exact heffect.prepares hsound hq hbefore (ih hbefore)

/-! ## Bound arguments -/

/-- The record of activation `k` is made by the instruction at a position, in step `s` of a run. -/
def MadeAt (run : Nat → Option (Machine × Journal)) (k position s : Nat) : Prop :=
  ∃ m j, run s = some (m, j) ∧ m.ip = position ∧ j.made = k

/-- An argument is passed to the record of activation `k` in step `s` of a run, and the value that
it had then is what some cells hold for its parameter. -/
def PassedAt (run : Nat → Option (Machine × Journal)) (k : Nat) (cells : Cells) (b : Binding)
    (s : Nat) : Prop :=
  ∃ m j v, run s = some (m, j) ∧ m.ip = b.position ∧ j.pending.head? = some k ∧
    Execute.load b.operand m.advance = .ok v m.advance ∧ cells[b.param.address]? = some v

theorem pairwise_lt_later {l : List Nat} {n n' : Nat} (h : (l ++ [n]).Pairwise (· < ·))
    (hn : n ≤ n') :
    (l ++ [n']).Pairwise (· < ·) := by
  rw [List.pairwise_append] at h ⊢
  refine ⟨h.1, List.pairwise_singleton .., fun x hx y hy => ?_⟩
  rw [List.mem_singleton.1 hy]
  exact Nat.lt_of_lt_of_le (h.2.2 x hx n (List.mem_singleton_self n)) hn

theorem pairwise_lt_concat {l : List Nat} {n n' : Nat} (h : (l ++ [n]).Pairwise (· < ·))
    (hn : n < n') :
    (l ++ [n] ++ [n']).Pairwise (· < ·) := by
  refine List.pairwise_append.2 ⟨h, List.pairwise_singleton .., fun x hx y hy => ?_⟩
  rw [List.mem_singleton.1 hy]
  rcases List.mem_append.1 hx with hx | hx
  · exact Nat.lt_trans ((List.pairwise_append.1 h).2.2 x hx n (List.mem_singleton_self n)) hn
  · rw [List.mem_singleton.1 hx]
    exact hn

/-- A record holds what was passed to it, parameter by parameter, and nothing else. -/
theorem Prepared.bindings {run : Nat → Option (Machine × Journal)} {k n : Nat} {c : Begun}
    {cells : Cells} (h : Prepared quads run k n c cells) {bs : List Binding}
    (hparams : c.params = bs.map (·.position))
    (hpassed : ∀ b ∈ bs, quads[b.position]? = some (b.param.bind b.operand))
    (hdistinct : (bs.map (·.param.address)).Nodup) :
    (∀ a, cells[a]?.isSome = true ↔ a ∈ bs.map (·.param.address)) ∧
      ∃ made steps, (made :: steps ++ [n]).Pairwise (· < ·) ∧ MadeAt run k c.era made ∧
        List.Forall₂ (PassedAt run k cells) bs steps := by
  induction h generalizing bs with
  | @made s i m j hrun hip hmade =>
    obtain rfl : bs = [] := List.map_eq_nil_iff.1 hparams.symm
    refine ⟨by simp [Cells.empty], s, [], by simp, ⟨m, j, hrun, hip, hmade⟩, .nil⟩
  | @passed s s' i c cells m j p x v hbefore hs hrun hip hk hq hload ih =>
    -- The last argument is the one that this step passes.
    obtain ⟨bs', bs'', rfl, hfront, hback⟩ := List.map_eq_append_iff.1 hparams.symm
    obtain ⟨b, rfl, rfl⟩ := List.map_eq_singleton_iff.1 hback
    rw [List.map_append, List.nodup_append] at hdistinct
    obtain ⟨hfirst, -, hlast⟩ := hdistinct
    have hb := hpassed b (by simp)
    rw [hq] at hb
    obtain ⟨rfl, haddress⟩ : x = b.operand ∧ p.address = b.param.address := by
      simpa [Param.bind, Operand.cell, Int64.toInt_inj] using Option.some.inj hb
    obtain ⟨hcells, made, steps, horder, hmade, hbs⟩ :=
      ih hfront.symm (fun b' hb' => hpassed b' (by simp [hb'])) hfirst
    refine ⟨?_, made, steps ++ [s'], ?_, hmade, ?_⟩
    · intro a
      rw [Cells.getElem?_write, haddress, List.map_append, List.mem_append, ← hcells a]
      split
      · simp_all
      · rename_i hne
        simp [Ne.symm hne]
    · exact @pairwise_lt_concat (made :: steps) _ _ (pairwise_lt_later horder hs)
        (Nat.lt_succ_self s')
    · refine List.rel_append ?_ (.cons ?_ .nil)
      · have hothers : ∀ b' ∈ bs', b'.param.address ≠ b.param.address := fun b' hb' =>
          hlast _ (List.mem_map_of_mem hb') _ (by simp)
        refine ((List.forall₂_and_left _ _).2 ⟨hothers, hbs⟩).imp ?_
        rintro b' s ⟨hne, m', j', v', hrun', hip', hk', hload', hv'⟩
        refine ⟨m', j', v', hrun', hip', hk', hload', ?_⟩
        rw [Cells.getElem?_write, haddress, if_neg (Ne.symm hne)]
        exact hv'
      · refine ⟨m, j, v, hrun, hip, hk, hload, ?_⟩
        rw [Cells.getElem?_write, if_pos haddress]

/-- When a function is entered, it is the one that is declared under the name that the call has. Its
record is the one that the call made, and the cells of the record are those of the parameters that
the function is declared with: each of them holds the value that the argument of the call for it had
when it was passed, from left to right. -/
theorem call_arguments_bound {text : Bytes} {p : Program} (h : compile text = .ok p)
    {t : Source.Tree} (hread : t.ReadFrom text) {input : Bytes} {room : Option Nat}
    {depth : Int} {n : Nat}
    (hrun : (Machine.start p input room).watched (Image.ofProgram p depth) n = some (m, j))
    {q : Quad} (hfetch : (Image.ofProgram p depth).fetch? m.ip = some q) (hop : q.op = .gosub) :
    ∃ (c : CallSite) (names : Names) (params : List Param), m.ip = c.gosub ∧
      c.Of t (Generator.initial.parse text).2 names params ∧ c.In names p.quads.toList params ∧
      ∃ (k : Nat) (r : Frame) (m' : Machine), j.pending.head? = some k ∧
        m.step (Image.ofProgram p depth) = (none, m') ∧ m'.ip = c.function.target ∧
        m'.frames = r :: m.frames ∧
        (∀ a, r.cells[a]?.isSome = true ↔ a ∈ params.map (·.address)) ∧
        ∃ made steps, (made :: steps ++ [n]).Pairwise (· < ·) ∧
          MadeAt ((Machine.start p input room).watched (Image.ofProgram p depth)) k c.era made ∧
          List.Forall₂
            (PassedAt ((Machine.start p input room).watched (Image.ofProgram p depth)) k r.cells)
            c.bindings steps := by
  have hcharted := compile_charted h
  obtain ⟨⟨i, hsound⟩, -⟩ := hcharted.watched hrun
  have hq : p.quads.toList[i]? = some q := by
    rw [hsound.ip] at hfetch
    rw [Array.getElem?_toList]
    exact hfetch
  obtain ⟨c, names, params, rfl, hof, hin, rest, hbegun⟩ := compile_callSite h hread hq hop
  have hprepares := hcharted.prepares hrun
  unfold Machine.Prepares Machine.begun at hprepares
  have hnow : m.ip.toNat = c.gosub := by rw [hsound.ip]; rfl
  rw [hnow, hbegun] at hprepares
  cases hpending : m.pending with
  | nil =>
    rw [hpending] at hprepares
    cases hprepares
  | cons r pending =>
    cases hj : j.pending with
    | nil =>
      rw [hj, List.zip_nil_right] at hprepares
      cases hprepares
    | cons k ks =>
      rw [hpending, hj] at hprepares
      obtain ⟨⟨n', hn', hprepared⟩, -⟩ := List.forall₂_cons.1 hprepares
      have haddresses : c.bindings.map (·.param.address) = params.map (·.address) := by
        rw [← hin.params, List.map_map]
        rfl
      obtain ⟨hcells, made, steps, horder, hmade, hbs⟩ := hprepared.bindings rfl
        (fun b hb => (hin.passed b hb).bind) (by rw [haddresses]; exact hof.distinct)
      obtain rfl : q = c.function.gosub := Option.some.inj (hq.symm.trans hin.gosub)
      refine ⟨c, names, params, hsound.ip, hof, hin, k, { r with returnTo := m.ip + 1 },
        { m.advance with
          pending, frames := { r with returnTo := m.ip + 1 } :: m.frames, ip := c.function.target },
        rfl, ?_, rfl, rfl, ?_, made, steps, ?_, hmade, hbs⟩
      · have hentered : Execute.gosub c.function.target m.advance = .ok () { m.advance with
            pending, frames := { r with returnTo := m.ip + 1 } :: m.frames,
            ip := c.function.target } := by
          unfold Execute.gosub
          have hpending' : m.advance.pending = r :: pending := hpending
          rw [Success.get_bind, hpending']
          rfl
        have hexec : Execute.exec (Image.ofProgram p depth) c.function.gosub m.advance =
          Execute.gosub c.function.target m.advance := rfl
        unfold Machine.step
        rw [hfetch]
        simp only [hexec, hentered]
      · rw [← haddresses]
        exact hcells
      · exact pairwise_lt_later horder hn'

/-- The outer call enters the function with the record that was made first, although the inner
call made and entered another one since. -/
theorem nested_arguments_bound : ∃ p t m j, compile nested = .ok p ∧ Source.Tree.ReadFrom t nested ∧
    (Machine.start p [] none).watched (Image.ofProgram p 0) 10 = some (m, j) ∧
      j.pending = [0] ∧ j.made = 2 ∧
      ∃ (c : CallSite) (names : Names) (params : List Param) (r : Frame) (m' : Machine),
        c.Of t (Generator.initial.parse nested).2 names params ∧
        m.step (Image.ofProgram p 0) = (none, m') ∧ m'.frames = r :: m.frames ∧
        (∀ a, r.cells[a]?.isSome = true ↔ a ∈ params.map (·.address)) ∧ ∃ made steps,
          MadeAt ((Machine.start p [] none).watched (Image.ofProgram p 0)) 0 c.era made ∧
          List.Forall₂ (PassedAt ((Machine.start p [] none).watched (Image.ofProgram p 0))
            0 r.cells) c.bindings steps := by
  obtain ⟨p, m, j, hcompile, hm, hcheck⟩ := @exists_watched nested 10
    (fun p m j => (((Image.ofProgram p 0).fetch? m.ip).any fun q => q.op = .gosub) &&
      j.pending = [0] && j.made = 2) (by decide +kernel)
  simp only [Bool.and_eq_true, decide_eq_true_eq] at hcheck
  obtain ⟨⟨hgosub, hpending⟩, hmade⟩ := hcheck
  obtain ⟨q, hfetch, hop⟩ := (Option.any_eq_true _ _).1 hgosub
  obtain ⟨-, t, -, -, hread⟩ := compile_spelled hcompile
  obtain ⟨c, names, params, -, hof, -, k, r, m', hk, hstep, -, hframes, hcells, made,
    steps, -, hera, hbound⟩ := call_arguments_bound hcompile hread hm hfetch (of_decide_eq_true hop)
  rw [hpending] at hk
  obtain rfl := Option.some.inj hk
  exact ⟨p, t, m, j, hcompile, hread, hm, hpending, hmade, c, names, params, r, m', hof,
    hstep, hframes, hcells, made, steps, hera, hbound⟩

end Quadlang
