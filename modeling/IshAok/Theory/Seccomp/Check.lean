import IshAok.Core.Bpf

/-!
# The BPF Checker Is Sound

What `bpf_check` accepts, `bpf_run` can run: every instruction it reaches is
known and in bounds, every scratch word it reads was written earlier on the
same path, and it comes to an end within as many instructions as the program
has.

The checker makes one pass and keeps, for each instruction, the set of scratch
words that are written on every path into it. `Flow` is what is left of the
pass once its bookkeeping is forgotten: a family of sets, one per program
counter, that can only lose words along an edge of the program, except where
an instruction stores one. A run then carries along that the words of the set
at its program counter have been written (`Reached`).

Jumps go forward, so the program counter bounds the number of instructions
executed. A run does not always end at a return: a division by an index
register of zero ends it too, with the value 0, as the source says.

## Main definitions

* `stateAt`: The state after a number of instructions.
* `Stores`, `Loads`: The scratch words an instruction touches.
* `WrittenBefore`: A word was stored to earlier in the run.
* `SafeAt`: All that is asked of an instruction that is executed.
* `Flow`: What the pass over loads and stores establishes.
* `Reached`: The invariant of a run.

## Theorems

* `checkInsns_ok`: Every instruction of an accepted program was checked.
* `checkLoads_fits`: The pass yields sets that fit the program.
* `bpfExec_next`, `bpfExec_cases`: What a checked instruction does.
* `stateAt_reached`: The invariant holds after every instruction.
* `check_sound`: Accepted programs run safely to their end.
* `div_by_zero_ends`: An accepted program that ends without a return.
-/

namespace IshAok.Seccomp

open Option List Bool BitVec

/-- The state after `n` instructions, if the run gets that far. -/
def stateAt (f : List SockFilter) (data : List UInt32) : Nat → Option BpfState
  | 0 => some .initial
  | n + 1 => match stateAt f data n with
    | none => none
    | some s => match bpfStep f data s with
      | .next s' => some s'
      | _ => none

variable (i : SockFilter)

/-- The instruction stores to a scratch word. -/
def Stores (w : Nat) : Prop :=
  (i.op = some .st ∨ i.op = some .stx) ∧ i.k.toNat = w

/-- The instruction reads a scratch word. -/
def Loads (w : Nat) : Prop :=
  (i.op = some .ldMem ∨ i.op = some .ldxMem) ∧ i.k.toNat = w

/-- One of the first `n` instructions of the run stored to a scratch word. -/
def WrittenBefore (f : List SockFilter) (data : List UInt32) (n w : Nat) : Prop :=
  ∃ m s i, m < n ∧ stateAt f data m = some s ∧ f[s.pc]? = some i ∧ Stores i w

/-- What is asked of the instruction executed after `n` others. -/
structure SafeAt (f : List SockFilter) (data : List UInt32) (n : Nat) (s : BpfState)
    (i : SockFilter) : Prop where
  fetched : f[s.pc]? = some i
  known : i.op ≠ none
  scratch : ∀ w, Stores i w ∨ Loads i w → w < bpfMemWords
  written : ∀ w, Loads i w → WrittenBefore f data n w
  aligned : i.op = some .ldWAbs → i.k.toNat % 4 = 0 ∧ i.k.toNat < seccompDataSize
  shift : i.op = some (.alu .lsh .k) ∨ i.op = some (.alu .rsh .k) → i.k.toNat < 32
  divide : i.op = some (.alu .div .k) → i.k ≠ 0

theorem checkInsns_ok (len : Nat) (rest : List SockFilter) : ∀ pc : Nat,
    checkInsns len pc rest = .ok () →
    ∀ j i, rest[j]? = some i → insnRefused len (pc + j) i = false := by
  induction rest with
  | nil =>
    intro pc _ j i hj
    cases hj
  | cons i rest ih =>
    intro pc h j i' hj
    rw [checkInsns] at h
    by_cases hr : insnRefused len pc i = true
    · rw [if_pos hr] at h
      cases h
    rw [if_neg hr] at h
    cases j with
    | zero =>
      rw [getElem?_cons_zero, some.injEq] at hj
      rw [← hj, Nat.add_zero]
      exact eq_false_iff.mpr hr
    | succ j =>
      have hnext := ih (pc + 1) h j i' hj
      rwa [Nat.add_assoc, Nat.add_comm 1 j] at hnext

/-- The places an instruction may hand control to. -/
def Succ (pc pc' : Nat) : Prop :=
  match i.op with
  | some .ja => pc' = pc + 1 + i.k.toNat
  | some (.jmp _ _) => pc' = pc + 1 + i.jt.toNat ∨ pc' = pc + 1 + i.jf.toNat
  | _ => pc' = pc + 1

/-- Sets of scratch words, one per program counter, that fit an instruction:
    it reads only words of its set, and hands on no more than its set and the
    word it stores. -/
structure Flow (V : Nat → Nat → Prop) (pc : Nat) (i : SockFilter) : Prop where
  load : ∀ w, Loads i w → V pc w
  edge : ∀ pc' w, Succ i pc pc' → V pc' w → V pc w ∨ Stores i w

/-- A scratch word is in a set of the checker. -/
def Bit (v : BitVec 16) (w : Nat) : Prop :=
  v.getLsbD w = true

theorem bit_and (u v : BitVec 16) (w : Nat) : Bit (u &&& v) w ↔ Bit u w ∧ Bit v w := by
  unfold Bit
  rw [getLsbD_and, and_eq_true]

/-- The bits of a single word. -/
theorem bit_word (k w : Nat) (h : Bit (1#16 <<< k) w) : k = w := by
  unfold Bit at h
  rw [getLsbD_shiftLeft, and_eq_true, and_eq_true] at h
  obtain ⟨⟨-, hge⟩, hone⟩ := h
  rw [not_eq_true', decide_eq_false_iff_not] at hge
  rw [getLsbD_one, and_eq_true, decide_eq_true_eq, decide_eq_true_eq] at hone
  omega

/-- A store adds its word to the set. -/
theorem bit_store (v : BitVec 16) (k w : Nat) (h : Bit (v ||| (1#16 <<< k)) w) :
    Bit v w ∨ k = w := by
  unfold Bit at h
  rw [getLsbD_or, or_eq_true] at h
  exact h.imp id (bit_word k w)

/-- The test of a load finds the word in the set. -/
theorem bit_load (v : BitVec 16) (k : Nat) (h : ¬ v &&& (1#16 <<< k) = 0) : Bit v k := by
  unfold Bit
  cases hk : v.getLsbD k with
  | true => rfl
  | false =>
    -- The only bit tested is `k`, so nothing would be left of the set.
    refine absurd (eq_of_getLsbD_eq (fun w hw => ?_)) h
    rw [getLsbD_and]
    cases hw : (1#16 <<< k).getLsbD w with
    | false => simp
    | true =>
      rw [← bit_word k w hw, hk]
      simp

theorem meetAt_length (validIn : List (BitVec 16)) (t : Nat) (v : BitVec 16) :
    (meetAt validIn t v).length = validIn.length := by
  unfold meetAt
  rw [length_set]

/-- Meeting at a target loses words there and nowhere else. -/
theorem bit_meetAt (validIn : List (BitVec 16)) (t q w : Nat) (v : BitVec 16)
    (h : Bit ((meetAt validIn t v).getD q 0xffff) w) :
    Bit (validIn.getD q 0xffff) w ∧ (q = t → t < validIn.length → Bit v w) := by
  unfold meetAt at h
  rw [List.getD_eq_getElem?_getD, getElem?_set] at h
  by_cases hq : t = q
  · rw [if_pos hq] at h
    by_cases hlt : t < validIn.length
    · rw [if_pos hlt, getD_some, bit_and, hq] at h
      exact ⟨h.1, fun _ _ => h.2⟩
    · rw [if_neg hlt, getD_none] at h
      refine ⟨?_, fun _ hc => absurd hc hlt⟩
      rw [← hq, List.getD_eq_getElem?_getD, List.getElem?_eq_none (Nat.le_of_not_lt hlt),
        getD_none]
      exact h
  · rw [if_neg hq] at h
    exact ⟨h, fun hc => absurd hc.symm hq⟩

theorem succ_gt (pc pc' : Nat) (h : Succ i pc pc') : pc < pc' := by
  unfold Succ at h
  split at h <;> omega

/-- Sets that fit the rest of a program, given what the pass knows when it
    gets there. -/
structure Fits (V : Nat → Nat → Prop) (pc : Nat) (rest : List SockFilter) (valid : BitVec 16)
    (validIn : List (BitVec 16)) : Prop where
  here : ∀ w, V pc w → Bit valid w
  into : ∀ q w, pc ≤ q → V q w → Bit (validIn.getD q 0xffff) w
  flow : ∀ j i, rest[j]? = some i → Flow V (pc + j) i

/-- Putting the set of one instruction in front of the sets of the rest. -/
theorem fits_cons (pc : Nat) (i : SockFilter) (rest : List SockFilter) (valid v' : BitVec 16)
    (validIn validIn' : List (BitVec 16)) (V : Nat → Nat → Prop)
    (hV : Fits V (pc + 1) rest v' validIn')
    (hless : ∀ q w, Bit (validIn'.getD q 0xffff) w → Bit (validIn.getD q 0xffff) w)
    (hload : ∀ w, Loads i w → Bit (valid &&& validIn.getD pc 0xffff) w)
    (hedge : ∀ pc' w, Succ i pc pc' → (pc' = pc + 1 → Bit v' w) →
      Bit (validIn'.getD pc' 0xffff) w → Bit (valid &&& validIn.getD pc 0xffff) w ∨ Stores i w) :
    ∃ U, Fits U pc (i :: rest) valid validIn := by
  have hne : ∀ pc', Succ i pc pc' → pc' ≠ pc := fun pc' hs => Nat.ne_of_gt (succ_gt i pc pc' hs)
  refine ⟨fun q w => if q = pc then Bit (valid &&& validIn.getD pc 0xffff) w else V q w, ?_, ?_, ?_⟩
  · intro w hw
    rw [if_pos rfl, bit_and] at hw
    exact hw.1
  · intro q w hq hw
    by_cases hqp : q = pc
    · rw [if_pos hqp, bit_and] at hw
      rw [hqp]
      exact hw.2
    · rw [if_neg hqp] at hw
      exact hless q w (hV.into q w (by omega) hw)
  · intro j i' hj
    cases j with
    | zero =>
      rw [getElem?_cons_zero, some.injEq] at hj
      subst hj
      refine ⟨fun w hw => ?_, fun pc' w hs hw => ?_⟩
      · rw [Nat.add_zero, if_pos rfl]
        exact hload w hw
      · rw [Nat.add_zero] at hs ⊢
        rw [if_neg (hne pc' hs)] at hw
        rw [if_pos rfl]
        refine hedge pc' w hs (fun he => hV.here w (he ▸ hw)) (hV.into pc' w ?_ hw)
        exact succ_gt i pc pc' hs
    | succ j =>
      have hflow := hV.flow j i' hj
      rw [show pc + 1 + j = pc + (j + 1) by omega] at hflow
      refine ⟨fun w hw => ?_, fun pc' w hs hw => ?_⟩
      · rw [if_neg (by omega)]
        exact hflow.load w hw
      · have hgt := succ_gt i' _ pc' hs
        rw [if_neg (by omega)] at hw ⊢
        exact hflow.edge pc' w hs hw

/-- The pass over loads and stores, started anywhere with any sets. -/
theorem checkLoads_fits (len : Nat) (rest : List SockFilter) : ∀ (pc : Nat) (valid : BitVec 16)
    (validIn : List (BitVec 16)), validIn.length = len →
    (∀ j i, rest[j]? = some i → insnRefused len (pc + j) i = false) →
    checkLoads pc rest valid validIn = .ok () → ∃ V, Fits V pc rest valid validIn := by
  induction rest with
  | nil =>
    intro pc valid validIn _ _ _
    refine ⟨fun _ _ => False, fun w hw => absurd hw id, fun q w _ hw => absurd hw id, ?_⟩
    intro j i hj
    cases hj
  | cons i rest ih =>
    intro pc valid validIn hlen hok h
    have hoki := hok 0 i rfl
    have hokr : ∀ j i', rest[j]? = some i' → insnRefused len (pc + 1 + j) i' = false := by
      intro j i' hj
      have hnext := hok (j + 1) i' hj
      rwa [show pc + (j + 1) = pc + 1 + j by omega] at hnext
    rw [checkLoads] at h
    cases hop : i.op with
    | none =>
      rw [insnRefused, hop] at hoki
      cases hoki
    | some op =>
      rw [hop] at h
      rw [insnRefused, hop] at hoki
      -- Which words are read, which are stored, and where control goes.
      have hl : ∀ w, Loads i w ↔ (op = .ldMem ∨ op = .ldxMem) ∧ i.k.toNat = w := by
        intro w
        simp [Loads, hop]
      have hst : ∀ w, Stores i w ↔ (op = .st ∨ op = .stx) ∧ i.k.toNat = w := by
        intro w
        simp [Stores, hop]
      have hsame : ∀ q w, Bit (validIn.getD q 0xffff) w → Bit (validIn.getD q 0xffff) w :=
        fun _ _ => id
      cases op with
      | st | stx =>
        obtain ⟨V, hV⟩ := ih _ _ _ hlen hokr h
        refine fits_cons pc i rest valid _ validIn _ V hV hsame (fun w hw => ?_) ?_
        · exact absurd ((hl w).mp hw).1 (by simp)
        · intro pc' w hs hthere _
          simp only [Succ, hop] at hs
          rcases bit_store _ _ w (hthere hs) with hb | hb
          · exact Or.inl hb
          · exact Or.inr ((hst w).mpr ⟨by simp, hb⟩)
      | ldMem | ldxMem =>
        simp only [] at h
        split at h
        · cases h
        rename_i hbit
        obtain ⟨V, hV⟩ := ih _ _ _ hlen hokr h
        refine fits_cons pc i rest valid _ validIn _ V hV hsame (fun w hw => ?_) ?_
        · rw [← ((hl w).mp hw).2]
          exact bit_load _ _ hbit
        · intro pc' w hs hthere _
          simp only [Succ, hop] at hs
          exact Or.inl (hthere hs)
      | ja =>
        simp only [decide_eq_false_iff_not, ge_iff_le] at hoki
        obtain ⟨V, hV⟩ := ih _ _ _ ((meetAt_length _ _ _).trans hlen) hokr h
        refine fits_cons pc i rest valid _ validIn _ V hV
          (fun q w hw => (bit_meetAt _ _ _ _ _ hw).1) (fun w hw => ?_) ?_
        · exact absurd ((hl w).mp hw).1 (by simp)
        · intro pc' w hs _ hin
          simp only [Succ, hop] at hs
          exact Or.inl ((bit_meetAt _ _ _ _ _ hin).2 hs (by omega))
      | jmp jop src =>
        simp only [or_eq_false_iff, decide_eq_false_iff_not, ge_iff_le] at hoki
        obtain ⟨V, hV⟩ := ih _ _ _
          ((meetAt_length _ _ _).trans ((meetAt_length _ _ _).trans hlen)) hokr h
        refine fits_cons pc i rest valid _ validIn _ V hV
          (fun q w hw => (bit_meetAt _ _ _ _ _ (bit_meetAt _ _ _ _ _ hw).1).1)
          (fun w hw => ?_) ?_
        · exact absurd ((hl w).mp hw).1 (by simp)
        · intro pc' w hs _ hin
          simp only [Succ, hop] at hs
          obtain ⟨hin', hjf⟩ := bit_meetAt _ _ _ _ _ hin
          rcases hs with hs | hs
          · exact Or.inl ((bit_meetAt _ _ _ _ _ hin').2 hs (by omega))
          · exact Or.inl (hjf hs (by rw [meetAt_length]; omega))
      | _ =>
        obtain ⟨V, hV⟩ := ih _ _ _ hlen hokr h
        refine fits_cons pc i rest valid _ validIn _ V hV hsame (fun w hw => ?_) ?_
        · exact absurd ((hl w).mp hw).1 (by simp)
        · intro pc' w hs hthere _
          simp only [Succ, hop] at hs
          exact Or.inl (hthere hs)

/-- An operation only changes the accumulator. -/
theorem aluStep_next (op : AluOp) (src : Src) (k : UInt32) (s s' : BpfState)
    (h : aluStep op src k s = .next s') : s'.m = s.m ∧ s'.pc = s.pc := by
  cases op <;> cases src <;> simp only [aluStep] at h <;> try split at h
  all_goals first
    | exact absurd h (by simp only [reduceCtorEq, not_false_eq_true])
    | (rw [StepResult.next.injEq] at h; subst h; exact ⟨rfl, rfl⟩)

/-- An operation that the checker let through goes on, or divides by an index
    register of zero. -/
theorem aluStep_cases (op : AluOp) (src : Src) (k : UInt32) (s : BpfState)
    (hdiv : op = .div → src = .k → k ≠ 0) (hlsh : op = .lsh → src = .k → k.toNat < 32)
    (hrsh : op = .rsh → src = .k → k.toNat < 32) :
    (∃ s', aluStep op src k s = .next s') ∨
      (aluStep op src k s = .divZero ∧ op = .div ∧ src = .x ∧ s.x = 0) := by
  cases op <;> cases src <;> simp only [aluStep]
  case div.k => exact .inl ⟨_, if_neg (hdiv rfl rfl)⟩
  case div.x =>
    by_cases hx : s.x = 0
    · exact .inr ⟨if_pos hx, trivial, trivial, hx⟩
    · exact .inl ⟨_, if_neg hx⟩
  case lsh.k => exact .inl ⟨_, if_neg (Nat.not_le_of_lt (hlsh rfl rfl))⟩
  case rsh.k => exact .inl ⟨_, if_neg (Nat.not_le_of_lt (hrsh rfl rfl))⟩
  all_goals exact .inl ⟨_, rfl⟩

/-- One turn of the loop, on an instruction the checker knows. -/
theorem bpfStep_eq (f : List SockFilter) (data : List UInt32) (s : BpfState) (i : SockFilter)
    (op : Opcode) (hshort : f.length ≤ bpfMaxInsns) (hi : f[s.pc]? = some i)
    (hop : i.op = some op) :
    bpfStep f data s = bpfExec data i op { s with pc := s.pc + 1 } := by
  have hpc : s.pc < f.length := (List.getElem?_eq_some_iff.mp hi).1
  unfold bpfMaxInsns at hshort
  have hone : pcAdd s.pc 1 = s.pc + 1 := by
    unfold pcAdd
    omega
  unfold bpfStep
  simp only [hi, hop, hone]

/-- Where an instruction that goes on hands control to. -/
theorem bpfExec_next (len : Nat) (data : List UInt32) (i : SockFilter) (op : Opcode) (pc : Nat)
    (s s' : BpfState) (hlen : len ≤ bpfMaxInsns) (hpc : pc < len) (hspc : s.pc = pc + 1)
    (hop : i.op = some op) (hok : insnRefused len pc i = false)
    (h : bpfExec data i op s = .next s') :
    s'.m.length = s.m.length ∧ Succ i pc s'.pc ∧ op ≠ .retK ∧ op ≠ .retA := by
  unfold bpfMaxInsns at hlen
  rw [insnRefused, hop] at hok
  unfold Succ
  rw [hop]
  cases op with
  | ldWAbs | ldMem | ldxMem | st | stx =>
    simp only [bpfExec] at h
    split at h
    · cases h
    · rw [StepResult.next.injEq] at h
      subst h
      exact ⟨by simp, hspc, by simp⟩
  | alu aop src =>
    obtain ⟨hm, hp⟩ := aluStep_next aop src i.k s s' h
    rw [hm, hp]
    exact ⟨rfl, hspc, by simp⟩
  | ja =>
    simp only [bpfExec, StepResult.next.injEq] at h
    simp only [decide_eq_false_iff_not, ge_iff_le] at hok
    subst h
    refine ⟨rfl, ?_, by simp⟩
    simp only [pcAdd, hspc]
    omega
  | jmp jop src =>
    simp only [bpfExec, StepResult.next.injEq] at h
    simp only [or_eq_false_iff, decide_eq_false_iff_not, ge_iff_le] at hok
    subst h
    refine ⟨rfl, ?_, by simp⟩
    simp only [pcAdd, hspc]
    by_cases hj : jmpEval jop s.a (src.pick i.k s.x) = true
    · rw [if_pos hj]
      left
      omega
    · rw [if_neg hj]
      right
      omega
  | retK | retA => cases h
  | _ =>
    simp only [bpfExec, StepResult.next.injEq] at h
    subst h
    exact ⟨rfl, hspc, by simp⟩

/-- An instruction that was checked goes on, returns, or divides by an index
    register of zero. -/
theorem bpfExec_cases (len : Nat) (data : List UInt32) (i : SockFilter) (op : Opcode) (pc : Nat)
    (s : BpfState) (hdata : data.length = 16) (hm : s.m.length = bpfMemWords)
    (hop : i.op = some op) (hok : insnRefused len pc i = false) :
    (∃ s', bpfExec data i op s = .next s') ∨
    (∃ v, bpfExec data i op s = .ret v ∧ (op = .retK ∨ op = .retA)) ∨
    (bpfExec data i op s = .divZero ∧ op = .alu .div .x ∧ s.x = 0) := by
  rw [insnRefused, hop] at hok
  cases op with
  | ldWAbs =>
    simp only [or_eq_false_iff, decide_eq_false_iff_not, ge_iff_le, seccompDataSize] at hok
    have hlt : i.k.toNat / 4 < data.length := by omega
    left
    simp only [bpfExec, List.getElem?_eq_getElem hlt]
    exact ⟨_, rfl⟩
  | ldMem | ldxMem =>
    simp only [decide_eq_false_iff_not, ge_iff_le] at hok
    have hlt : i.k.toNat < s.m.length := by omega
    left
    simp only [bpfExec, List.getElem?_eq_getElem hlt]
    exact ⟨_, rfl⟩
  | st | stx =>
    simp only [decide_eq_false_iff_not, ge_iff_le] at hok
    left
    exact ⟨_, if_neg (by omega)⟩
  | alu aop src =>
    rcases aluStep_cases aop src i.k s
      (by rintro rfl rfl hz; simp only [hz, UInt32.toNat_zero, decide_true,
            Bool.true_eq_false] at hok)
      (by rintro rfl rfl; simpa only [decide_eq_false_iff_not, ge_iff_le, Nat.not_le] using hok)
      (by rintro rfl rfl; simpa only [decide_eq_false_iff_not, ge_iff_le, Nat.not_le] using hok)
      with hnext | ⟨hz, rfl, rfl, hx⟩
    · exact .inl hnext
    · exact .inr (.inr ⟨hz, rfl, hx⟩)
  | retK => exact .inr (.inl ⟨_, rfl, .inl rfl⟩)
  | retA => exact .inr (.inl ⟨_, rfl, .inr rfl⟩)
  | _ => exact .inl ⟨_, rfl⟩

/-- What acceptance by the checker comes to. -/
structure Accepted (f : List SockFilter) (V : Nat → Nat → Prop) : Prop where
  checked : ∀ pc i, f[pc]? = some i → insnRefused f.length pc i = false
  ends : ∀ pc i, f[pc]? = some i → pc + 1 = f.length → i.op = some .retK ∨ i.op = some .retA
  start : ∀ w, ¬ V 0 w
  flow : ∀ pc i, f[pc]? = some i → Flow V pc i

theorem bpfCheck_accepted (p : Program) (memory : Bool) (h : bpfCheck p memory = .ok ()) :
    ∃ V, Accepted p.insns V := by
  unfold bpfCheck at h
  cases hc : checkInsns p.insns.length 0 p.insns with
  | error e => rw [hc] at h; exact nomatch h
  | ok u =>
    rw [hc] at h
    simp only [] at h
    split at h
    · cases h
    rename_i hends
    split at h
    · cases h
    have hchecked : ∀ pc i, p.insns[pc]? = some i → insnRefused p.insns.length pc i = false := by
      intro pc i hi
      have hok := checkInsns_ok _ p.insns 0 hc pc i hi
      rwa [Nat.zero_add] at hok
    obtain ⟨V, hV⟩ := checkLoads_fits p.insns.length p.insns 0 0 _ (length_replicate)
      (fun j i hj => by rw [Nat.zero_add]; exact hchecked j i hj) h
    refine ⟨V, hchecked, fun pc i hi hpc => ?_, fun w hw => ?_, fun pc i hi => ?_⟩
    · have hlast : p.insns.getLast? = some i := by
        rw [getLast?_eq_getElem?, ← hpc, Nat.add_sub_cancel]
        exact hi
      unfold endsInRet at hends
      rw [hlast] at hends
      simpa only [decide_eq_false_iff_not, Decidable.not_not] using hends
    · have hz := hV.here w hw
      unfold Bit at hz
      exact absurd hz (by simp)
    · have hfl := hV.flow pc i hi
      rwa [Nat.zero_add] at hfl

/-- Every place of an accepted program holds a known instruction. -/
theorem accepted_fetch (f : List SockFilter) (V : Nat → Nat → Prop) (h : Accepted f V) (pc : Nat)
    (hpc : pc < f.length) : ∃ i op, f[pc]? = some i ∧ i.op = some op := by
  refine ⟨f[pc], ?_⟩
  cases hop : (f[pc]).op with
  | some op => exact ⟨op, List.getElem?_eq_getElem hpc, rfl⟩
  | none =>
    have hok := h.checked pc _ (List.getElem?_eq_getElem hpc)
    rw [insnRefused, hop] at hok
    cases hok

/-- Control stays inside an accepted program. -/
theorem succ_lt (f : List SockFilter) (V : Nat → Nat → Prop) (h : Accepted f V) (pc pc' : Nat)
    (i : SockFilter) (op : Opcode) (hi : f[pc]? = some i) (hop : i.op = some op)
    (hk : op ≠ .retK) (ha : op ≠ .retA) (hs : Succ i pc pc') : pc' < f.length := by
  have hpc : pc < f.length := (List.getElem?_eq_some_iff.mp hi).1
  have hok := h.checked pc i hi
  -- Falling through from the last instruction is excluded, as that returns.
  have hend : pc + 1 ≠ f.length := by
    intro hc
    rcases h.ends pc i hi hc with hr | hr <;> rw [hop, some.injEq] at hr
    · exact hk hr
    · exact ha hr
  unfold Succ at hs
  rw [insnRefused, hop] at hok
  rw [hop] at hs
  cases op with
  | ja =>
    simp only [decide_eq_false_iff_not, ge_iff_le] at hok
    omega
  | jmp jop src =>
    simp only [or_eq_false_iff, decide_eq_false_iff_not, ge_iff_le] at hok
    omega
  | _ =>
    omega

/-- The invariant of a run after `n` instructions. -/
structure Reached (f : List SockFilter) (data : List UInt32) (V : Nat → Nat → Prop) (n : Nat)
    (s : BpfState) : Prop where
  forward : n ≤ s.pc
  inside : s.pc < f.length
  words : s.m.length = bpfMemWords
  written : ∀ w, V s.pc w → WrittenBefore f data n w

theorem stateAt_reached (p : Program) (data : List UInt32) (V : Nat → Nat → Prop)
    (h : Accepted p.insns V) : ∀ (n : Nat) (s : BpfState), stateAt p.insns data n = some s →
    Reached p.insns data V n s := by
  intro n
  induction n with
  | zero =>
    intro s hs
    rw [stateAt, some.injEq] at hs
    subst hs
    exact ⟨Nat.le_refl 0, p.pos, length_replicate, fun w hw => absurd hw (h.start w)⟩
  | succ n ih =>
    intro s' hs'
    rw [stateAt] at hs'
    cases hst : stateAt p.insns data n with
    | none =>
      rw [hst] at hs'
      cases hs'
    | some s =>
      rw [hst] at hs'
      simp only [] at hs'
      have hr := ih s hst
      obtain ⟨i, op, hi, hop⟩ := accepted_fetch p.insns V h s.pc hr.inside
      have hok := h.checked s.pc i hi
      rw [bpfStep_eq p.insns data s i op p.short hi hop] at hs'
      cases hex : bpfExec data i op { s with pc := s.pc + 1 } with
      | next t =>
        rw [hex, some.injEq] at hs'
        subst hs'
        obtain ⟨hm, hsucc, hk, ha⟩ := bpfExec_next p.insns.length data i op s.pc _ t
          p.short hr.inside rfl hop hok hex
        have hgt := succ_gt i s.pc t.pc hsucc
        have hle := hr.forward
        refine ⟨by omega, succ_lt p.insns V h s.pc t.pc i op hi hop hk ha hsucc,
          hm.trans hr.words, ?_⟩
        intro w hw
        rcases (h.flow s.pc i hi).edge t.pc w hsucc hw with hold | hstore
        · obtain ⟨m, sm, im, hlt, hrest⟩ := hr.written w hold
          exact ⟨m, sm, im, Nat.lt_succ_of_lt hlt, hrest⟩
        · exact ⟨n, s, i, Nat.lt_succ_self n, hst, hi, hstore⟩
      | _ =>
        rw [hex] at hs'
        cases hs'

/-- How a run may end: at a return, or at a division by an index register of
    zero. -/
def EndsWith (s : BpfState) (r : StepResult) : Prop :=
  (∃ v, r = .ret v ∧ (i.op = some .retK ∨ i.op = some .retA)) ∨
    (r = .divZero ∧ i.op = some (.alu .div .x) ∧ s.x = 0)

/-- From any state of a run of an accepted program the rest of the program is
    enough to get to the end. -/
theorem runLoop_ends (p : Program) (data : List UInt32) (V : Nat → Nat → Prop)
    (h : Accepted p.insns V) (hdata : data.length = 16) : ∀ (fuel n : Nat) (s : BpfState),
    stateAt p.insns data n = some s → p.insns.length ≤ n + fuel →
    ∃ m t i r, m < p.insns.length ∧ stateAt p.insns data m = some t ∧
      p.insns[t.pc]? = some i ∧ runLoop p.insns data fuel s = some r ∧ EndsWith i t r := by
  intro fuel
  induction fuel with
  | zero =>
    intro n s hs hle
    have hr := stateAt_reached p data V h n s hs
    have hlt := hr.inside
    have hfw := hr.forward
    omega
  | succ fuel ih =>
    intro n s hs hle
    have hr := stateAt_reached p data V h n s hs
    obtain ⟨i, op, hi, hop⟩ := accepted_fetch p.insns V h s.pc hr.inside
    have hstep := bpfStep_eq p.insns data s i op p.short hi hop
    have hn : n < p.insns.length := by
      have hlt := hr.inside
      have hfw := hr.forward
      omega
    rw [runLoop]
    rcases bpfExec_cases p.insns.length data i op s.pc { s with pc := s.pc + 1 } hdata hr.words
      hop (h.checked s.pc i hi) with ⟨s', hnext⟩ | ⟨v, hret, hopr⟩ | ⟨hz, rfl, hx⟩
    · rw [hnext] at hstep
      rw [hstep]
      refine ih (n + 1) s' ?_ (by omega)
      rw [stateAt, hs]
      simp only [hstep]
    · rw [hret] at hstep
      rw [hstep]
      refine ⟨n, s, i, _, hn, hs, hi, rfl, .inl ⟨v, rfl, ?_⟩⟩
      rw [hop, some.injEq, some.injEq]
      exact hopr
    · rw [hz] at hstep
      rw [hstep]
      exact ⟨n, s, i, _, hn, hs, hi, rfl, .inr ⟨rfl, hop, hx⟩⟩

/-- The instruction at any state of a run of an accepted program is safe. -/
theorem safeAt_of_reached (p : Program) (data : List UInt32) (V : Nat → Nat → Prop)
    (h : Accepted p.insns V) (n : Nat) (s : BpfState) (hs : stateAt p.insns data n = some s) :
    ∃ i, SafeAt p.insns data n s i := by
  have hr := stateAt_reached p data V h n s hs
  obtain ⟨i, op, hi, hop⟩ := accepted_fetch p.insns V h s.pc hr.inside
  have hok := h.checked s.pc i hi
  refine ⟨i, hi, by rw [hop]; simp only [ne_eq, reduceCtorEq, not_false_eq_true], ?_, ?_, ?_, ?_,
    ?_⟩
  · rintro w (⟨hw, rfl⟩ | ⟨hw, rfl⟩) <;> rcases hw with hw | hw <;>
      simpa only [insnRefused, hw, decide_eq_false_iff_not, ge_iff_le, Nat.not_le] using hok
  · intro w hw
    exact hr.written w ((h.flow s.pc i hi).load w hw)
  · intro hw
    simp only [insnRefused, hw, or_eq_false_iff, decide_eq_false_iff_not, ge_iff_le,
      Nat.not_le, ne_eq, Decidable.not_not] at hok
    exact ⟨hok.2, hok.1⟩
  · rintro (hw | hw) <;>
      simpa only [insnRefused, hw, decide_eq_false_iff_not, ge_iff_le, Nat.not_le] using hok
  · intro hw hz
    simp only [insnRefused, hw, hz, UInt32.toNat_zero, decide_true, Bool.true_eq_false] at hok

/-- A program the checker accepts ends within as many instructions as it has,
    at a return or at a division by an index register of zero, and every
    instruction on the way is safe. -/
theorem check_sound (p : Program) (memory : Bool) (data : List UInt32) (hdata : data.length = 16)
    (h : bpfCheck p memory = .ok ()) :
    (∃ n s i r, n < p.insns.length ∧ stateAt p.insns data n = some s ∧
      p.insns[s.pc]? = some i ∧ bpfRun p.insns data = some r ∧ EndsWith i s r) ∧
    ∀ n s, stateAt p.insns data n = some s →
      n < p.insns.length ∧ s.pc < p.insns.length ∧ ∃ i, SafeAt p.insns data n s i := by
  obtain ⟨V, hV⟩ := bpfCheck_accepted p memory h
  refine ⟨runLoop_ends p data V hV hdata p.insns.length 0 _ rfl (by omega), fun n s hs => ?_⟩
  have hr := stateAt_reached p data V hV n s hs
  have hlt := hr.inside
  have hfw := hr.forward
  exact ⟨by omega, hlt, safeAt_of_reached p data V hV n s hs⟩

/-- Load 7, store it to word 3, read it back and return it. -/
def storeThenLoad : Program :=
  { insns := [⟨0x00, 0, 0, 7⟩, ⟨0x02, 0, 0, 3⟩, ⟨0x60, 0, 0, 3⟩, ⟨0x16, 0, 0, 0⟩]
    pos := by decide
    short := by decide }

theorem check_sound_storeThenLoad :
    bpfCheck storeThenLoad true = .ok () ∧
    (∃ n s i r, n < 4 ∧ stateAt storeThenLoad.insns (List.replicate 16 0) n = some s ∧
      storeThenLoad.insns[s.pc]? = some i ∧
      bpfRun storeThenLoad.insns (List.replicate 16 0) = some r ∧ EndsWith i s r) :=
  ⟨by rfl, (check_sound storeThenLoad true (List.replicate 16 0) (by decide) (by rfl)).1⟩

/-- Divide by the index register, then return. -/
def divThenRet : Program :=
  { insns := [⟨0x3c, 0, 0, 0⟩, ⟨0x06, 0, 0, 0⟩]
    pos := by decide
    short := by decide }

/-- The index register starts at zero, so the run of this program ends at its
    first instruction and reaches no return. -/
theorem div_by_zero_ends :
    bpfCheck divThenRet true = .ok () ∧
    bpfRun divThenRet.insns (List.replicate 16 0) = some .divZero ∧
    ¬ ∃ n s i, stateAt divThenRet.insns (List.replicate 16 0) n = some s ∧
      divThenRet.insns[s.pc]? = some i ∧ (i.op = some .retK ∨ i.op = some .retA) := by
  refine ⟨by rfl, by rfl, ?_⟩
  rintro ⟨n, s, i, hs, hi, hret⟩
  have hstop : ∀ m, stateAt divThenRet.insns (List.replicate 16 0) (m + 1) = none := by
    intro m
    induction m with
    | zero => rfl
    | succ m ih => rw [stateAt, ih]
  cases n with
  | zero =>
    cases hs
    cases hi
    exact absurd hret (by decide)
  | succ n =>
    rw [hstop n] at hs
    cases hs

end IshAok.Seccomp
