import IshAok.Base.Run
import IshAok.Core.ExecCache

/-!
# What the Exec Cache Serves

An entry is sound if its block is what the bytes that are kept with it are
translated to. A lookup compares these bytes with those that are there, so it
only returns translations of what it has fetched if every entry is sound.

The bytes that are kept were fetched after the compile, each for a second time.
A store in between makes an entry of new bytes with the old block, which is then
served to every process that has the new bytes there. With no such store, what
a compile has fetched is what is there until the entry is made. A translation
fetches no more than what is kept, so the kept bytes are translated alike.

## Main definitions

* `Translator`: What is assumed of the translator.
* `Undisturbed`: Nothing that was fetched for an entry changes before it is made.
* `Sound`, `Served`: The block of an entry, or of a lookup, is the translation of its bytes.

## Theorems

* `turn_inv`, `step_inv`: What a thread does, and what happens at all, keeps entries sound.
* `cache_sound`: Every entry is sound, and so is what lookups return.
* `cache_mixed`: A store between the compile and the second fetch.
-/

namespace IshAok.ExecCache

open Base List

/-- A translation is a function of its address, its own bytes and `XC_TAIL` bytes
    after them, and it has no more than a page, as the compile asserts. -/
structure Translator (gen : Nat → Gen) : Prop where
  addr : ∀ ip read block, (gen ip).run read = some block → block.addr = ip
  size : ∀ ip read block, (gen ip).run read = some block → block.endAddr - block.addr + 1 ≤ pageSize
  near : ∀ ip read block, (gen ip).run read = some block → block.noShare = false →
    ∀ offset ∈ (gen ip).offsets read, offset < block.endAddr - block.addr + 1 + xcTail

/-- The block of an entry is the translation of its bytes. -/
def Sound (gen : Nat → Gen) (e : Entry) : Prop :=
  (gen e.addr).run (fun offset => e.bytes[offset]?) = some e.block

/-- What a lookup returns is the translation of the bytes that it has fetched and
    compared. -/
def Served (gen : Nat → Gen) (hit : Hit) : Prop :=
  (gen hit.ip).run (fun offset => (hit.now.take hit.len)[offset]?) = some hit.block

section

variable {A T : Type}

/-- The addresses that a compile has fetched, until its entry is made. -/
def Phase.fetched : Phase A → List (A × Nat)
  | .compiling space ip _ log => log.map fun x => (space, ip + x.1)
  | .recording space block log _ => log.map fun x => (space, block.addr + x.1)
  | _ => []

/-- Nothing that was fetched for an entry changes before it is made. -/
def Undisturbed (s : State A T) (a : Action A T) : Prop :=
  ∀ t, ∀ x ∈ (s.phase t).fetched, (a.memory s.mem).fetch x.1 x.2 = s.mem.fetch x.1 x.2

/-- Bytes that are as they were fetched. -/
def Agrees (read : Nat → Option Byte) (log : List (Nat × Option Byte)) : Prop :=
  ∀ x ∈ log, read x.1 = x.2

/-- What holds of a thread: what it has fetched is still there, and decides what
    it is about to make. -/
def PhaseOk (gen : Nat → Gen) (mem : Memory A) : Phase A → Prop
  | .idle => True
  | .looking _ _ chain _ _ => ∀ e ∈ chain, Sound gen e
  | .compiling space ip g log =>
    Agrees (fun offset => mem.fetch space (ip + offset)) log ∧
      ∀ read, Agrees read log → (gen ip).run read = g.run read ∧
        (gen ip).offsets read = log.map Prod.fst ++ g.offsets read
  | .recording space block log bytes =>
    Agrees (fun offset => mem.fetch space (block.addr + offset)) log ∧
      (∀ read, Agrees read log → (gen block.addr).run read = some block) ∧
      ∀ x ∈ log, x.1 < keptLen block ∧ (x.1 < bytes.length → bytes[x.1]? = x.2)

/-- Every entry is sound, and every thread is on the way to a sound one. -/
structure Inv (gen : Nat → Gen) (s : State A T) : Prop where
  table : ∀ b, ∀ e ∈ s.table b, Sound gen e
  phase : ∀ t, PhaseOk gen s.mem (s.phase t)

variable {gen : Nat → Gen} {s s' : State A T} {a : Action A T} {mem mem' : Memory A}
  {phase : Phase A}

theorem phaseOk_memory (h : PhaseOk gen mem phase)
    (hsame : ∀ x ∈ phase.fetched, mem'.fetch x.1 x.2 = mem.fetch x.1 x.2) :
    PhaseOk gen mem' phase := by
  cases phase with
  | idle => trivial
  | looking space ip chain now part => exact h
  | compiling | recording =>
    exact ⟨fun x hx => (hsame _ (mem_map_of_mem hx)).trans (h.1 x hx), h.2⟩

variable {space : A} {log : List (Nat × Option Byte)} {block : Block}

variable {ip : Nat} {bytes : List Byte} {t : T}

/-- A compile fetches one more byte. -/
theorem phaseOk_fetch {offset : Nat} {next : Option Byte → Gen}
    (h : PhaseOk gen mem (.compiling space ip (.fetch offset next) log)) :
    PhaseOk gen mem (.compiling space ip (next (mem.fetch space (ip + offset)))
      (log ++ [(offset, mem.fetch space (ip + offset))])) := by
  refine ⟨fun x hx => ?_, fun read hread => ?_⟩
  · rcases mem_append.mp hx with hx | hx
    · exact h.1 x hx
    · rw [mem_singleton.mp hx]
  · have hlast : read offset = mem.fetch space (ip + offset) :=
      hread (offset, _) (mem_append_right _ (mem_singleton_self _))
    rcases h.2 read fun x hx => hread x (mem_append_left _ hx) with ⟨hrun, hoffsets⟩
    rw [Gen.run, hlast] at hrun
    rw [Gen.offsets, hlast] at hoffsets
    refine ⟨hrun, ?_⟩
    rw [hoffsets, map_append, append_assoc]
    rfl

/-- A compile is done, and the second fetch begins. -/
theorem phaseOk_compiled (hgen : Translator gen) (hshare : block.noShare = false)
    (h : PhaseOk gen mem (.compiling space ip (.done (some block)) log)) :
    PhaseOk gen mem (.recording space block log []) := by
  rcases h.2 _ h.1 with ⟨hrun, hoffsets⟩
  have hip : block.addr = ip := hgen.addr ip _ block hrun
  have hsize := hgen.size ip _ block hrun
  have hnear := hgen.near ip _ block hrun hshare
  subst hip
  refine ⟨h.1, fun read hread => (h.2 read hread).1, fun x hx => ⟨?_, fun hlt => ?_⟩⟩
  · have hlt : x.1 < block.endAddr - block.addr + 1 + xcTail := by
      refine hnear x.1 ?_
      rw [hoffsets]
      exact mem_append_left _ (mem_map_of_mem hx)
    unfold keptLen
    unfold pageSize at hsize
    unfold xcTail at hlt ⊢
    omega
  · exact absurd hlt (Nat.not_lt_zero _)

/-- One more byte is kept. It is the one that the compile has fetched there. -/
theorem phaseOk_record {b : Byte} (h : PhaseOk gen mem (.recording space block log bytes))
    (hb : mem.fetch space (block.addr + bytes.length) = some b) :
    PhaseOk gen mem (.recording space block log (bytes ++ [b])) := by
  refine ⟨h.1, h.2.1, fun x hx => ⟨(h.2.2 x hx).1, fun hlt => ?_⟩⟩
  rw [length_append, length_singleton] at hlt
  by_cases hold : x.1 < bytes.length
  · rw [List.getElem?_append_left hold]
    exact (h.2.2 x hx).2 hold
  · have heq : x.1 = bytes.length := by omega
    have hagree := h.1 x hx
    simp only [heq, hb] at hagree
    rw [heq, List.getElem?_concat_length]
    exact hagree

/-- An entry that is made is sound. -/
theorem sound_recorded (h : PhaseOk gen mem (.recording space block log bytes))
    (hlen : ¬bytes.length < keptLen block) : Sound gen ⟨block.addr, bytes, block⟩ :=
  h.2.1 _ fun x hx => (h.2.2 x hx).2 (by have := (h.2.2 x hx).1; omega)

theorem served_none : ∀ hit ∈ (none : Option Hit), Served gen hit :=
  fun _ hx => nomatch hx

theorem setEnabled_inv (h : Inv gen s) (on : Bool) : Inv gen (setEnabled s on) := by
  unfold setEnabled
  split
  · exact ⟨fun _ _ he => absurd he not_mem_nil, h.phase⟩
  · exact ⟨h.table, h.phase⟩

theorem inv_lock (h : Inv gen s) (lock : Option T) : Inv gen { s with lock := lock } :=
  ⟨h.table, h.phase⟩

/-- The new entry is at the head of its bucket. -/
theorem inv_insert (h : Inv gen s)
    (hsound : Sound gen ⟨block.addr, bytes, block⟩) : Inv gen (insert s block bytes) := by
  refine ⟨fun b e he => ?_, h.phase⟩
  by_cases hb : b = xcBucket block.addr
  · simp only [insert, hb, Function.update_self] at he
    rcases mem_cons.mp he with rfl | he
    · exact hsound
    · exact h.table _ e he
  · simp only [insert, Function.update_of_ne hb] at he
    exact h.table b e he

variable [DecidableEq T]

theorem inv_set (h : Inv gen s) (hok : PhaseOk gen s.mem phase) : Inv gen (s.set t phase) := by
  refine ⟨h.table, fun u => ?_⟩
  by_cases hu : u = t
  · simp only [State.set, hu, Function.update_self]
    exact hok
  simp only [State.set, Function.update_of_ne hu]
  exact h.phase u

theorem inv_idle (h : Inv gen s) (t : T) : Inv gen (s.set t .idle) :=
  inv_set h trivial

theorem phaseOk_start (space : A) (ip : Nat) : PhaseOk gen mem (.compiling space ip (gen ip) []) :=
  ⟨fun _ hx => absurd hx not_mem_nil, fun _ _ => ⟨rfl, rfl⟩⟩

theorem inv_miss (h : Inv gen s) (t : T) (space : A) (ip : Nat) : Inv gen (miss gen s t space ip) :=
  inv_lock (inv_set h (phaseOk_start space ip)) none

theorem lookupTurn_inv (h : Inv gen s) (t : T) (ok : Bool) (space : A) (ip : Nat)
    (now part : List Byte) {chain : List Entry} (hchain : ∀ e ∈ chain, Sound gen e) :
    Inv gen (lookupTurn gen s t ok space ip now part chain).1 ∧
      ∀ hit ∈ (lookupTurn gen s t ok space ip now part chain).2, Served gen hit := by
  have hlooking : ∀ l now part, (∀ e ∈ l, Sound gen e) →
      Inv gen (s.set t (.looking space ip l now part)) := fun l now part hl => inv_set h hl
  cases chain with
  | nil => exact ⟨inv_miss h t space ip, served_none⟩
  | cons e rest =>
    have hrest : ∀ x ∈ rest, Sound gen x := fun x hx => hchain x (mem_cons_of_mem _ hx)
    rw [lookupTurn]
    split
    · exact ⟨hlooking rest now [] hrest, served_none⟩
    next hip =>
    split
    · cases s.mem.fetch space (ip + now.length + part.length) with
      | none => exact ⟨hlooking rest now [] hrest, served_none⟩
      | some b => exact ⟨hlooking (e :: rest) now (part ++ [b]) hchain, served_none⟩
    · split
      · next hbytes =>
        cases ok with
        | false => exact ⟨inv_miss h t space ip, served_none⟩
        | true =>
          refine ⟨inv_lock (inv_idle h t) none, fun hit hx => ?_⟩
          cases hx
          simp only [Served, hbytes, ← not_not.mp hip]
          exact hchain e mem_cons_self
      · exact ⟨hlooking rest (now ++ part) [] hrest, served_none⟩

/-- A thread that goes on keeps the entries sound. -/
theorem turn_inv (hgen : Translator gen) (h : Inv gen s) {ok : Bool} {r : Option Hit}
    (hturn : turn gen s t ok = some (s', r)) : Inv gen s' ∧ ∀ hit ∈ r, Served gen hit := by
  have hphase := h.phase t
  unfold turn at hturn
  split at hturn
  · cases hturn
  · next space ip chain now part heq =>
    rw [heq] at hphase
    have hlookup := lookupTurn_inv h t ok space ip now part hphase
    rw [Option.some.inj hturn] at hlookup
    exact hlookup
  · next heq =>
    rw [heq] at hphase
    cases hturn
    exact ⟨inv_set h (phaseOk_fetch hphase), served_none⟩
  · cases hturn
    exact ⟨inv_idle h t, served_none⟩
  · next space ip block log heq =>
    rw [heq] at hphase
    cases hturn
    refine ⟨?_, served_none⟩
    split
    · next hmay =>
      simp only [mayStore, Bool.and_eq_true, Bool.not_eq_true'] at hmay
      exact inv_set h (phaseOk_compiled hgen hmay.1.1.1.1.2 hphase)
    · exact inv_idle h t
  · next space block log bytes heq =>
    rw [heq] at hphase
    split at hturn
    · split at hturn
      · cases hturn
        exact ⟨inv_idle h t, served_none⟩
      next hb =>
      cases hturn
      exact ⟨inv_set h (phaseOk_record hphase hb), served_none⟩
    · next hlen =>
      split at hturn
      · cases hturn
        exact ⟨inv_idle h t, served_none⟩
      split at hturn
      · cases hturn
        exact ⟨inv_idle (inv_insert h (sound_recorded hphase hlen)) t, served_none⟩
      · cases hturn

theorem translate_inv (h : Inv gen s)
    (htranslate : translate gen s t space ip = some s') : Inv gen s' := by
  unfold translate at htranslate
  split at htranslate
  · split at htranslate
    · cases htranslate
      exact inv_set h (phaseOk_start space ip)
    split at htranslate
    · cases htranslate
      refine inv_lock (inv_set h ?_) (some t)
      exact h.table _
    · cases htranslate
  · cases htranslate

theorem exec_inv (hgen : Translator gen) (h : Inv gen s) (hquiet : Undisturbed s a)
    {r : Option Hit} (hexec : exec gen s a = some (s', r)) :
    Inv gen s' ∧ ∀ hit ∈ r, Served gen hit := by
  have hmemory : Inv gen { s with mem := a.memory s.mem } :=
    ⟨h.table, fun t => phaseOk_memory (h.phase t) (hquiet t)⟩
  cases a with
  | store | map =>
    cases hexec
    exact ⟨hmemory, served_none⟩
  | setEnabled on =>
    simp only [exec] at hexec
    split at hexec
    · cases hexec
      exact ⟨setEnabled_inv h on, served_none⟩
    · cases hexec
  | translate t space ip =>
    rcases Option.map_eq_some_iff.mp hexec with ⟨v, hv, heq⟩
    cases heq
    exact ⟨translate_inv h hv, served_none⟩
  | turn t ok => exact turn_inv hgen h hexec

/-- Where nothing that was fetched for an entry changes before it is made, the
    block of every entry is the translation of the bytes that are kept with it,
    and what lookups return is the translation of the bytes they have compared. -/
theorem cache_sound (hgen : Translator gen) {start : State A T}
    {tr : List (State A T × Action A T)} (hempty : ∀ b, start.table b = [])
    (hidle : ∀ t, start.phase t = .idle) (hrun : Run (Step gen) start tr s)
    (hquiet : ∀ x ∈ tr, Undisturbed x.1 x.2) :
    (∀ b, ∀ e ∈ s.table b, Sound gen e) ∧
      ∀ x ∈ tr, ∀ s' hit, exec gen x.1 x.2 = some (s', some hit) → Served gen hit := by
  have hstart : Inv gen start := by
    refine ⟨fun b e he => ?_, fun t => ?_⟩
    · rw [hempty b] at he
      cases he
    · rw [hidle t]
      trivial
  have hstep : ∀ u a v, (u, a) ∈ tr → Inv gen u → Step gen u a v → Inv gen v := by
    intro u a v hmem hu hstep
    rcases Option.map_eq_some_iff.mp hstep with ⟨⟨w, r⟩, hexec, rfl⟩
    exact (exec_inv hgen hu (hquiet (u, a) hmem) hexec).1
  refine ⟨(run_invariant (Inv gen) hrun hstart hstep).table, fun x hx s' hit hexec => ?_⟩
  have hx' : Inv gen x.1 := run_mem_invariant (Inv gen) hrun hstart hstep hx
  exact (exec_inv hgen hx' (hquiet x hx) hexec).2 hit rfl

end

/-- Blocks of one byte. -/
def oneByte (ip : Nat) : Gen :=
  .fetch 0 fun b => .done (b.map fun v => ⟨ip, ip, 1, false, [v.toNat]⟩)

theorem translator_oneByte : Translator oneByte := by
  have hrun : ∀ ip read block, (oneByte ip).run read = some block →
      block.addr = ip ∧ block.endAddr = ip := by
    intro ip read block h
    rcases Option.map_eq_some_iff.mp h with ⟨v, _, rfl⟩
    exact ⟨rfl, rfl⟩
  refine ⟨fun ip read block h => (hrun ip read block h).1, fun ip read block h => ?_,
    fun ip read block h _ offset hmem => ?_⟩
  · rw [(hrun ip read block h).1, (hrun ip read block h).2, Nat.sub_self]
    decide
  · rw [mem_singleton.mp hmem]
    exact Nat.succ_pos _

/-- Two processes with the same bytes, a thread in each, and a cache that is on. -/
def twoProcesses : State Bool Bool where
  mem := ⟨fun _ addr => some addr, fun _ => 0x90⟩
  table := fun _ => []
  xcBytes := 0
  enabled := true
  lock := none
  phase := fun _ => .idle

/-- Turns of threads, which change no memory. -/
def Action.isTurn {A T : Type} : Action A T → Bool
  | .translate _ _ _ => true
  | .turn _ _ => true
  | _ => false

theorem undisturbed_turn {A T : Type} {s : State A T} {a : Action A T} (h : a.isTurn = true) :
    Undisturbed s a := by
  intro t x _
  cases a with
  | translate | turn => rfl
  | store | map | setEnabled => cases h

/-- A block is translated and kept in one process, and served to the other. -/
theorem cache_sound_shared :
    ∃ (s u : State Bool Bool) (tr : List (State Bool Bool × Action Bool Bool)) (hit : Hit),
      Run (Step oneByte) twoProcesses tr u ∧ (∀ b, ∀ e ∈ u.table b, Sound oneByte e) ∧
        (s, .turn false true) ∈ tr ∧ exec oneByte s (.turn false true) = some (u, some hit) ∧
        Served oneByte hit := by
  have hval : (runActions (fun s a => (exec oneByte s a).map Prod.fst) twoProcesses
      (.translate true true 0 :: List.replicate 13 (.turn true true) ++
        .translate false false 0 :: List.replicate 9 (.turn false true))).map (fun r =>
      (r.1.all fun x => x.2.isTurn, ((exec oneByte r.2 (.turn false true)).bind Prod.snd).isSome)) =
      some (true, true) := by
    decide +kernel
  rcases Option.map_eq_some_iff.mp hval with ⟨⟨tr, s⟩, htr, hval⟩
  simp only [Prod.mk.injEq, all_eq_true, Option.isSome_iff_exists, Option.bind_eq_some_iff] at hval
  rcases hval with ⟨hturns, hit, ⟨u, r⟩, hexec, rfl⟩
  have hstep : Step oneByte s (.turn false true) u := congrArg (Option.map Prod.fst) hexec
  have hrun := (run_of_runActions _ _ _ _ htr).next _ hstep
  have hmem := mem_append_right tr (mem_singleton_self (s, Action.turn (A := Bool) false true))
  have hsound := cache_sound translator_oneByte (fun _ => rfl) (fun _ => rfl) hrun fun x hx =>
    undisturbed_turn <| (mem_append.mp hx).elim (hturns x) fun h => by rw [mem_singleton.mp h]; rfl
  exact ⟨s, u, _, hit, hrun, hsound.1, hmem, hexec, hsound.2 _ hmem u hit hexec⟩

/-- A store between the compile and the second fetch: the entry has the new byte
    and the block of the old one. -/
theorem cache_mixed : ∃ (s : State Bool Bool) (tr : List (State Bool Bool × Action Bool Bool)),
    Run (Step oneByte) twoProcesses tr s ∧ ∃ e ∈ s.table (xcBucket 0), ¬Sound oneByte e := by
  have hval : (runActions (fun s a => (exec oneByte s a).map Prod.fst) twoProcesses
      ([.translate true true 0, .turn true true, .turn true true, .store 0 0x91] ++
        List.replicate 11 (.turn true true))).map (fun r =>
      (r.2.table (xcBucket 0)).any fun e =>
        decide ((oneByte e.addr).run (fun offset => e.bytes[offset]?) ≠ some e.block)) =
      some true := by
    decide +kernel
  rcases Option.map_eq_some_iff.mp hval with ⟨⟨tr, s⟩, htr, hval⟩
  simp only [any_eq_true, decide_eq_true_eq] at hval
  exact ⟨s, tr, run_of_runActions _ _ _ _ htr, hval⟩

end IshAok.ExecCache
