import IshAok.Base.Graph
import IshAok.Base.Run
import IshAok.Core.Epoll

/-!
# The Watch Graph

An epoll instance that watches another is an edge. The search for a loop goes down
from the file that is added, so it knows every chain below the new edge: if it finds
nothing, the file does not reach the instance (`look_reaches`) and the chains below it
are short (`look_deep`). If it refuses, the edge would close a cycle or make a chain
that is too long (`look_refuses`).

It knows nothing of the instances that watch the one it adds to, nor of what is added
after it has looked. So the graph stays as it should in the runs in which no add ends
while another is past its look, and in which nothing watches the instance that is added
to or the chains above and below the new edge fit together (`Careful`). A run that
builds a chain from its top, and one with two adds at a time, do not (`chain_too_long`).

## Main definitions

* `Watches`: The edges of the graph.
* `Shallow`: No cycle, and no chain that is too long.
* `Careful`: An add that ends alone, and below nothing or a short chain.
* `Effect`: What a step can do.
* `Inv`: What holds in a careful run.

## Theorems

* `watch_graph_shallow`: Every careful run, and every refusal of any run.
-/

namespace IshAok.Epoll

open Base List Relation Function

variable {F T : Type}

/-- An epoll instance has a registration of another. -/
def Watches (k : Kinds F) (s : State F T) (x y : F) : Prop :=
  k.isEpoll x = true ∧ k.isEpoll y = true ∧ ∃ f, (y, f) ∈ s.pollFds x

/-- No cycle, and no path through more than `EP_MAX_NESTS + 1` instances. -/
def Shallow (k : Kinds F) (s : State F T) : Prop :=
  Acyclic (Watches k s) ∧ ∀ n x y, Walk (Watches k s) n x y → n + 1 ≤ epMaxNests + 1

/-- What an add needs past its look. No other thread is there too, and nothing watches
    the instance, or the instances of any path down to it and any path down from the file
    are not too many together. -/
def Fits (k : Kinds F) (s : State F T) (t : T) (epoll fd : F) : Prop :=
  k.isEpoll fd = true →
    (∀ u, u ≠ t → ∀ epoll' fd' f', s.phase u ≠ .clear epoll' fd' f') ∧
    ((∀ x, ¬ Watches k s x epoll) ∨
      ∀ i j x y, Walk (Watches k s) i x epoll → Walk (Watches k s) j fd y →
        (i + 1) + (j + 1) ≤ epMaxNests + 1)

/-- What keeps the graph shallow: an add that fits, unless it fails. -/
def Careful (k : Kinds F) (s : State F T) : Action F T → Prop
  | .addEnd _ (.failed _) => True
  | .addEnd t _ => ∀ epoll fd f, s.phase t = .clear epoll fd f → Fits k s t epoll fd
  | _ => True

/-- A thread in a call adds to an epoll instance, and not to itself. -/
def CheckedOk (k : Kinds F) : Phase F → Prop
  | .checked epoll fd _ => k.isEpoll epoll = true ∧ fd ≠ epoll
  | _ => True

/-- Past the look, the file does not reach the instance and no chain below it is long. -/
def ClearOk (k : Kinds F) (s : State F T) : Phase F → Prop
  | .clear epoll fd _ => ¬ ReflTransGen (Watches k s) fd epoll ∧
      ∀ n y, Walk (Watches k s) n fd y → n < epMaxNests
  | _ => True

structure Inv (k : Kinds F) (s : State F T) : Prop where
  shallow : Shallow k s
  threads : ∀ t, ClearOk k s (s.phase t)

variable {k : Kinds F} {s s' : State F T}

theorem shallow_mono (h : Shallow k s) (hw : ∀ x y, Watches k s' x y → Watches k s x y) :
    Shallow k s' :=
  ⟨acyclic_mono _ _ h.1 hw, fun n x y hn => h.2 n x y (walk_mono hw n x y hn)⟩

/-- Edges that go away. -/
theorem inv_shrink (h : Inv k s) (hphase : s'.phase = s.phase)
    (hw : ∀ x y, Watches k s' x y → Watches k s x y) : Inv k s' := by
  refine ⟨shallow_mono h.shallow hw, fun t => ?_⟩
  have ht := h.threads t
  rw [hphase]
  cases hp : s.phase t with
  | idle => trivial
  | checked epoll fd f => trivial
  | stuck => trivial
  | clear epoll fd f =>
    rw [hp] at ht
    exact ⟨fun hreach => ht.1 (ReflTransGen.mono hw fd epoll hreach),
      fun n y hn => ht.2 n y (walk_mono hw n fd y hn)⟩

theorem watches_of_subset (h : ∀ x r, r ∈ s'.pollFds x → r ∈ s.pollFds x) (x y : F)
    (hxy : Watches k s' x y) : Watches k s x y := by
  rcases hxy with ⟨hx, hy, f, hf⟩
  exact ⟨hx, hy, f, h x _ hf⟩

variable [DecidableEq F]

variable {epoll fd target : F}

/-- A search goes on to what is watched. -/
theorem look_child {child : F} {f : Int} {n : Nat} (hfd : k.isEpoll fd = true)
    (hf : (child, f) ∈ s.pollFds fd)
    (h : child = target ∨ epollWouldLoop k s target n child = true) :
    epollWouldLoop k s target (n + 1) fd = true := by
  simp only [epollWouldLoop, hfd, Bool.true_and, any_eq_true]
  exact ⟨_, hf, by simpa using h⟩

/-- A search finds what the file reaches. -/
theorem look_reaches (h : TransGen (Watches k s) fd target) :
    ∀ n, epollWouldLoop k s target n fd = true := by
  induction h using TransGen.head_induction_on with
  | single hedge =>
    rcases hedge with ⟨hfd, _, f, hf⟩
    rintro (_ | n)
    · exact hfd
    · exact look_child hfd hf (.inl rfl)
  | head hedge _ ih =>
    rcases hedge with ⟨hfd, _, f, hf⟩
    rintro (_ | n)
    · exact hfd
    · exact look_child hfd hf (.inr (ih n))

/-- A search goes down every chain. -/
theorem look_deep : ∀ n m (fd y : F), k.isEpoll fd = true → n ≤ m →
    Walk (Watches k s) m fd y → epollWouldLoop k s target n fd = true := by
  intro n
  induction n with
  | zero => exact fun _ _ _ hfd _ _ => hfd
  | succ n ih =>
    rintro (_ | m) fd y hfd hle hw
    · omega
    · rcases hw with ⟨z, ⟨_, hz, f, hf⟩, hw⟩
      exact look_child hfd hf (.inr (ih m z y hz (by omega) hw))

/-- What a search that finds nothing says. -/
theorem clearOk_of_look (f : Int) (hne : fd ≠ epoll)
    (hlook : ¬ epollWouldLoop k s epoll epMaxNests fd = true) :
    ClearOk k s (.clear epoll fd f) := by
  refine ⟨fun hreach => ?_, fun n y hn => ?_⟩
  · rcases reflTransGen_iff_eq_or_transGen.mp hreach with heq | hreach
    · exact hne heq.symm
    · exact hlook (look_reaches hreach _)
  · by_contra hlong
    cases n with
    | zero => exact hlong (by decide)
    | succ n =>
      have hfd : k.isEpoll fd = true := by
        rcases hn with ⟨_, hedge, _⟩
        exact hedge.1
      exact hlook (look_deep _ _ fd y hfd (Nat.le_of_not_lt hlong) hn)

/-- A search that refuses has reached the instance, or gone all the way down. -/
theorem look_refuses (htarget : k.isEpoll target = true) :
    ∀ n (fd : F), epollWouldLoop k s target n fd = true →
      k.isEpoll fd = true ∧ (TransGen (Watches k s) fd target ∨
        ∃ y, Walk (Watches k s) n fd y) := by
  intro n
  induction n with
  | zero => exact fun fd h => ⟨h, .inr ⟨fd, rfl⟩⟩
  | succ n ih =>
    intro fd h
    simp only [epollWouldLoop, Bool.and_eq_true, any_eq_true, Bool.or_eq_true,
      beq_iff_eq] at h
    rcases h with ⟨hfd, ⟨child, f⟩, hmem, rfl | hloop⟩
    · exact ⟨hfd, .inl (.single ⟨hfd, htarget, f, hmem⟩)⟩
    · rcases ih child hloop with ⟨hchild, hreach | ⟨y, hw⟩⟩
      · exact ⟨hfd, .inl (.head ⟨hfd, hchild, f, hmem⟩ hreach)⟩
      · exact ⟨hfd, .inr ⟨y, child, ⟨hfd, hchild, f, hmem⟩, hw⟩⟩

theorem mem_pollAddFd {x : F} {f : Int} {r : F × Int} :
    r ∈ (pollAddFd s epoll fd f).pollFds x ↔ r ∈ s.pollFds x ∨ (x = epoll ∧ r = (fd, f)) := by
  by_cases hx : x = epoll
  · simp [pollAddFd, hx, or_comm]
  · simp [pollAddFd, hx]

theorem watches_pollAddFd {f : Int} (x y : F)
    (h : Watches k (pollAddFd s epoll fd f) x y) : Watches k s x y ∨ (x = epoll ∧ y = fd) := by
  rcases h with ⟨hx, hy, f', hf⟩
  rcases mem_pollAddFd.mp hf with hf | ⟨rfl, heq⟩
  · exact .inl ⟨hx, hy, f', hf⟩
  · exact .inr ⟨rfl, congrArg Prod.fst heq⟩

/-- A refused add would have spoilt the graph. -/
theorem refused_not_shallow (f : Int) (hepoll : k.isEpoll epoll = true)
    (h : epollWouldLoop k s epoll epMaxNests fd = true) : ¬ Shallow k (pollAddFd s epoll fd f) := by
  rintro ⟨hacyclic, hshort⟩
  rcases look_refuses hepoll _ fd h with ⟨hfd, hreach⟩
  have hedge : Watches k (pollAddFd s epoll fd f) epoll fd :=
    ⟨hepoll, hfd, f, mem_pollAddFd.mpr (.inr ⟨rfl, rfl⟩)⟩
  have hmono : ∀ x y, Watches k s x y → Watches k (pollAddFd s epoll fd f) x y :=
    watches_of_subset fun _ _ hr => mem_pollAddFd.mpr (.inl hr)
  rcases hreach with hreach | ⟨y, hw⟩
  · exact hacyclic epoll (.head hedge (TransGen.mono hmono _ _ hreach))
  · have hlong : Walk (Watches k (pollAddFd s epoll fd f)) (epMaxNests + 1) epoll y :=
      ⟨fd, hedge, walk_mono hmono _ fd y hw⟩
    have := hshort _ epoll y hlong
    omega

variable [DecidableEq T]

omit [DecidableEq F] in
theorem inv_setPhase (h : Inv k s) (t : T) {p : Phase F} (hp : ClearOk k s p) :
    Inv k (s.setPhase t p) :=
  ⟨h.shallow, (forall_update_iff s.phase fun _ q => ClearOk k s q).mpr
    ⟨hp, fun u _ => h.threads u⟩⟩

/-- An add that ends as it should. No other thread relies on what it has seen. -/
theorem inv_add (h : Inv k s) {t : T} {epoll fd : F} {f : Int} {p : Phase F}
    (hp : s.phase t = .clear epoll fd f) (hfits : Fits k s t epoll fd)
    (hend : ∀ u, ClearOk k (u : State F T) p) : Inv k ((pollAddFd s epoll fd f).setPhase t p) := by
  cases hfd : k.isEpoll fd with
  | false =>
    -- Another file is no edge.
    have hw : ∀ x y, Watches k (pollAddFd s epoll fd f) x y → Watches k s x y := fun x y hxy => by
      rcases watches_pollAddFd x y hxy with hold | ⟨_, rfl⟩
      · exact hold
      · exact absurd hxy.2.1 (by rw [hfd]; exact Bool.false_ne_true)
    have hinv : Inv k (pollAddFd s epoll fd f) := inv_shrink h rfl hw
    exact inv_setPhase hinv t (hend _)
  | true =>
    rcases hfits hfd with ⟨halone, hroom⟩
    have hclear := h.threads t
    rw [hp] at hclear
    rcases hclear with ⟨hback, hbelow⟩
    refine ⟨⟨acyclic_insert _ _ epoll fd h.shallow.1 watches_pollAddFd hback, ?_⟩, ?_⟩
    · intro n x y hn
      rcases walk_insert watches_pollAddFd hback n x y hn with hold | ⟨i, j, hi, hj, rfl⟩
      · exact h.shallow.2 n x y hold
      · rcases hroom with htop | hroom
        · -- The new edge is the first, and the look has counted the others.
          have hj' := hbelow j y hj
          cases i with
          | zero => omega
          | succ i =>
            rcases walk_last hi with ⟨z, hz⟩
            exact absurd hz (htop z)
        · have := hroom i j x y hi hj
          omega
    · refine (forall_update_iff s.phase fun _ q => ClearOk k _ q).mpr
        ⟨hend _, fun u hut => ?_⟩
      cases hpu : s.phase u with
      | idle => trivial
      | checked e d g => trivial
      | stuck => trivial
      | clear e d g => exact absurd hpu (halone u hut e d g)

/-- What a step can do: lose registrations, take one thread on in its call, or add. -/
inductive Effect (k : Kinds F) (s : State F T) (careful : Prop) : State F T → Prop
  | shrink {u} (hphase : u.phase = s.phase) (hsub : ∀ x r, r ∈ u.pollFds x → r ∈ s.pollFds x) :
      Effect k s careful u
  | idle (t) : Effect k s careful (s.setPhase t .idle)
  | checked (t) {epoll fd} (f) (hepoll : k.isEpoll epoll = true) (hne : fd ≠ epoll) :
      Effect k s careful (s.setPhase t (.checked epoll fd f))
  | clear {t epoll fd f} (hp : s.phase t = .checked epoll fd f)
      (hlook : ¬ epollWouldLoop k s epoll epMaxNests fd = true) :
      Effect k s careful (s.setPhase t (.clear epoll fd f))
  | add {t epoll fd f p} (hp : s.phase t = .clear epoll fd f)
      (hend : p = .idle ∨ p = .stuck) (hfits : careful → Fits k s t epoll fd) :
      Effect k s careful ((pollAddFd s epoll fd f).setPhase t p)

theorem effect_of_step {u : State F T} {e : Action F T × Option Result} (hstep : Step k s e u) :
    Effect k s (Careful k s e.1) u := by
  have hsame : Effect k s (Careful k s e.1) s := .shrink rfl fun _ _ hr => hr
  rcases e with ⟨a, r⟩
  unfold Step at hstep
  cases a with
  | addBegin t epoll fd f =>
    simp only [exec] at hstep
    split at hstep
    · cases hstep
    split at hstep
    · cases hstep; exact hsame
    next hepoll =>
    split at hstep
    · cases hstep; exact hsame
    next hne =>
    split at hstep
    · cases hstep; exact hsame
    split at hstep
    · cases hstep; exact hsame
    cases hstep
    exact .checked t f (by simpa using hepoll) hne
  | addLook t =>
    simp only [exec] at hstep
    split at hstep
    · next hp =>
      split at hstep
      · cases hstep; exact .idle t
      · next hlook => cases hstep; exact .clear hp hlook
    · cases hstep
  | addEnd t outcome =>
    simp only [exec] at hstep
    split at hstep
    · next epoll fd f hp =>
      cases outcome with
      | failed e => cases hstep; exact .idle t
      | listed =>
        cases hstep
        exact .add hp (.inl rfl) fun hcareful => hcareful epoll fd f hp
      | stuck path =>
        simp only [Option.ite_none_right_eq_some] at hstep
        cases hstep.2
        exact .add hp (.inr rfl) fun hcareful => hcareful epoll fd f hp
    · cases hstep
  | mod t epoll fd f => cases hstep; exact hsame
  | del t epoll fd f =>
    cases hstep
    refine .shrink rfl fun x r hr => ?_
    by_cases hx : x = epoll
    · simp only [pollDelFd, hx, update_self] at hr
      rw [hx]
      exact mem_of_mem_erase hr
    · simpa only [pollDelFd, update_of_ne hx] using hr
  | close fd =>
    cases hstep
    refine .shrink rfl fun x r hr => ?_
    simp only [closeFile] at hr
    split at hr
    · cases hr
    · exact (mem_filter.mp hr).1

theorem checked_step {u : State F T} {careful : Prop} (h : ∀ t, CheckedOk k (s.phase t))
    (he : Effect k s careful u) : ∀ t, CheckedOk k (u.phase t) := by
  have hset : ∀ t p, CheckedOk k p → ∀ v, CheckedOk k (Function.update s.phase t p v) :=
    fun t p hp => (forall_update_iff s.phase fun _ q => CheckedOk k q).mpr
      ⟨hp, fun v _ => h v⟩
  cases he with
  | shrink hphase _ => rwa [hphase]
  | idle t => exact hset t _ trivial
  | checked t f hepoll hne => exact hset t _ ⟨hepoll, hne⟩
  | clear _ _ => exact hset _ _ trivial
  | add _ hend _ => rcases hend with rfl | rfl <;> exact hset _ _ trivial

theorem inv_step {u : State F T} {careful : Prop} (h : Inv k s)
    (hchecked : ∀ t, CheckedOk k (s.phase t)) (he : Effect k s careful u) (hcareful : careful) :
    Inv k u := by
  cases he with
  | shrink hphase hsub => exact inv_shrink h hphase (watches_of_subset hsub)
  | idle t => exact inv_setPhase h t trivial
  | checked t f _ _ => exact inv_setPhase h t trivial
  | @clear t epoll fd f hp hlook =>
    have ht := hchecked t
    rw [hp] at ht
    exact inv_setPhase h t (clearOk_of_look f ht.2 hlook)
  | add hp hend hfits =>
    refine inv_add h hp (hfits hcareful) fun u => ?_
    rcases hend with rfl | rfl <;> trivial

omit [DecidableEq F] [DecidableEq T] in
theorem not_watches_initial (x y : F) : ¬ Watches k (State.initial : State F T) x y := by
  rintro ⟨_, _, f, hf⟩
  cases hf

omit [DecidableEq F] [DecidableEq T] in
theorem inv_initial : Inv k (State.initial : State F T) := by
  refine ⟨⟨fun x hx => ?_, fun n x y hn => ?_⟩, fun _ => trivial⟩
  · rcases TransGen.head'_iff.mp hx with ⟨z, hz, _⟩
    exact not_watches_initial x z hz
  · cases n with
    | zero => exact Nat.le_add_left 1 _
    | succ n =>
      rcases hn with ⟨z, hz, _⟩
      exact absurd hz (not_watches_initial x z)

/-- In a careful run the graph of epoll instances that watch each other has no cycle
    and no path through more than `EP_MAX_NESTS + 1` of them. In any run an add is
    refused with `ELOOP` only if it would have ended that. -/
theorem watch_graph_shallow {tr : List (State F T × (Action F T × Option Result))}
    (hr : Run (Step k) State.initial tr s) :
    ((∀ x ∈ tr, Careful k x.1 x.2.1) → Shallow k s) ∧
    ∀ u t, (u, (.addLook t, some (.error .eloop))) ∈ tr →
      ∃ epoll fd f, u.phase t = .checked epoll fd f ∧ ¬ Shallow k (pollAddFd u epoll fd f) := by
  constructor
  · intro hcareful
    have hinv := run_invariant (fun u => Inv k u ∧ ∀ t, CheckedOk k (u.phase t)) hr
      ⟨inv_initial, fun _ => trivial⟩ fun u e v hmem hu hs =>
        ⟨inv_step hu.1 hu.2 (effect_of_step hs) (hcareful _ hmem),
          checked_step hu.2 (effect_of_step hs)⟩
    exact hinv.1.shallow
  · intro u t hmem
    have hu := run_mem_invariant (fun u : State F T => ∀ t, CheckedOk k (u.phase t)) hr
      (fun _ => trivial) (fun _ _ _ _ hu hs => checked_step hu (effect_of_step hs)) hmem t
    rcases run_split hr u _ hmem with ⟨_, _, v, _, _, hs, _⟩
    simp only [Step, exec] at hs
    split at hs
    · next epoll fd f hp =>
      rw [hp] at hu
      refine ⟨epoll, fd, f, hp, ?_⟩
      split at hs
      · next hlook => exact refused_not_shallow f hu.1 hlook
      · cases hs
    · cases hs

/-- Files that are all epoll instances. -/
def allEpoll : Kinds (Fin 6) := ⟨fun _ => true, fun _ => true⟩

/-- The actions of a thread that adds one instance to another. -/
def addWhole (t : Bool) (epoll fd : Fin 6) : List (Action (Fin 6) Bool) :=
  [.addBegin t epoll fd 0, .addLook t, .addEnd t .listed]

/-- A chain of three instances is built from its bottom, and the add that would close
    it is refused. -/
theorem watch_graph_shallow_chain : ∃ tr s,
    Run (Step allEpoll) (State.initial : State (Fin 6) Bool) tr s ∧
      Walk (Watches allEpoll s) 2 0 2 ∧ Shallow allEpoll s ∧
      ∃ u, (u, (.addLook false, some (.error .eloop))) ∈ tr ∧
        ¬ Shallow allEpoll (pollAddFd u 2 0 0) := by
  have hchain : Run (Step allEpoll) (State.initial : State (Fin 6) Bool) _ _ := run_of_runList
    (addWhole false 1 2 ++ addWhole false 0 1 ++ [.addBegin false 2 0 0]) _ _ _ rfl
  have hr := hchain.next (.addLook false, some (.error .eloop)) rfl
  rcases watch_graph_shallow hr with ⟨hshallow, hrefused⟩
  refine ⟨_, _, hr, ⟨1, ⟨rfl, rfl, 0, mem_cons_self⟩, 2, ⟨rfl, rfl, 0, mem_cons_self⟩, rfl⟩,
    hshallow ?_, _, mem_append_right _ (mem_singleton_self _), ?_⟩
  · -- Nothing watches either instance when it is added to.
    have halone : ∀ s : State (Fin 6) Bool, s.phase true = .idle →
        ∀ u, u ≠ false → ∀ epoll fd f, s.phase u ≠ .clear epoll fd f := by
      rintro s hs (_ | _) hu epoll fd f
      · exact absurd rfl hu
      · simp [hs]
    simp only [forall_mem_append, forall_mem_cons]
    refine ⟨⟨trivial, trivial, ?_, trivial, trivial, ?_, trivial, forall_mem_nil _⟩, trivial,
      forall_mem_nil _⟩
    · intro epoll fd f hp
      cases hp
      exact fun _ => ⟨halone _ rfl, .inl fun x => not_watches_initial (T := Bool) x 1⟩
    · intro epoll fd f hp
      cases hp
      refine fun _ => ⟨halone _ rfl, .inl fun x hx => ?_⟩
      rcases watches_pollAddFd x 0 hx with hold | ⟨_, heq⟩
      · exact not_watches_initial (T := Bool) x 0 hold
      · cases heq
  · rcases hrefused _ _ (mem_append_right _ (mem_singleton_self _)) with ⟨_, _, _, hp, hbad⟩
    cases hp
    exact hbad

/-- Two runs that are not careful. One thread builds a chain of six instances from its
    top. Two threads look before either adds, and their instances watch each other: the
    second does not return. -/
theorem chain_too_long :
    (∃ tr s, Run (Step allEpoll) (State.initial : State (Fin 6) Bool) tr s ∧
      Walk (Watches allEpoll s) 5 0 5) ∧
    ∃ tr s, Run (Step allEpoll) (State.initial : State (Fin 6) Bool) tr s ∧
      TransGen (Watches allEpoll s) 0 0 ∧ s.phase true = .stuck := by
  constructor
  · have hr := run_of_runList (f := exec allEpoll) (addWhole false 0 1 ++ addWhole false 1 2 ++
      addWhole false 2 3 ++ addWhole false 3 4 ++ addWhole false 4 5) State.initial _ _ rfl
    exact ⟨_, _, hr, 1, ⟨rfl, rfl, 0, mem_cons_self⟩, 2, ⟨rfl, rfl, 0, mem_cons_self⟩,
      3, ⟨rfl, rfl, 0, mem_cons_self⟩, 4, ⟨rfl, rfl, 0, mem_cons_self⟩,
      5, ⟨rfl, rfl, 0, mem_cons_self⟩, rfl⟩
  · have hr := run_of_runList (f := exec allEpoll) [.addBegin false 0 1 0, .addBegin true 1 0 0,
      .addLook false, .addLook true, .addEnd false .listed, .addEnd true (.stuck [1])]
      (State.initial : State (Fin 6) Bool) _ _ rfl
    refine ⟨_, _, hr, TransGen.head (b := 1) ?_ (.single ?_), rfl⟩
    · exact ⟨rfl, rfl, 0, mem_cons_self⟩
    · exact ⟨rfl, rfl, 0, mem_cons_self⟩

end IshAok.Epoll
