import MuseKv.Server.Sessions
import MuseKv.Server.Equiv.Route
import Mathlib.Data.List.Perm.Basic

/-!
# The accounting of sessions

`Inv h k`: `sock_vec` holds the sessions that are open and the `k` sessions that ended in a failed
`recv`, and `client_num` is its length.  A thread that leaves the loop after a failed `recv` neither
counts down nor erases its session, so the accounting is right just in the runs without one:
**`accounted_iff_noFailure`**.
-/

namespace MuseKv

open Kvstore Command

/-- A server without messages of a cluster. -/
theorem scanAndSend_clientNum {s : Server} {ss : Session} {com : Str} {t : Int} {connected : Bool}
    {x : Scan} (h : scanAndSend s ss com t connected = some x) (hx : x.server.clusterNum = 0) :
    s.clusterNum = 0 ∧ x.server.clientNum = s.clientNum := by
  obtain ⟨r, -, h⟩ := Option.bind_eq_some_iff.mp h
  rcases route_server h with ⟨-, h⟩ | ⟨-, h⟩ | ⟨-, h⟩ | ⟨-, h⟩ | h
  · -- `cluster_connect` counts a node in any case
    obtain ⟨_, _, -, -, ⟨-, _, _, -, -, h⟩ | ⟨-, h⟩⟩ := Server.clusterConnect_eq_some h
    · rw [h] at hx
      exact absurd hx (Nat.succ_ne_zero _)
    · rw [h] at hx
      exact absurd hx (Nat.succ_ne_zero _)
  · obtain ⟨_, _, -, -, h⟩ := Server.hashReset_eq_some h
    rw [h] at hx ⊢
    exact ⟨hx, rfl⟩
  · obtain ⟨_, -, -, h⟩ := Server.setReplicaNum_eq_some h
    rw [h] at hx ⊢
    exact ⟨hx, rfl⟩
  · rcases Server.replicaAdd_eq_some h with ⟨-, _, _, -, -, -, h⟩ | ⟨-, -, h⟩
    · rw [h] at hx ⊢
      exact ⟨hx, rfl⟩
    · rw [h] at hx ⊢
      exact ⟨hx, rfl⟩
  · rw [h] at hx ⊢
    exact ⟨hx, rfl⟩

/-! ### Counting positions -/

theorem length_filter_range {α : Type} (l : List α) (p : α → Bool) :
    ((List.range l.length).filter fun i => l[i]?.any p).length = l.countP p := by
  induction l using List.reverseRecOn with
  | nil => rfl
  | append_singleton l a ih =>
    have hold : ((List.range l.length).filter fun i => (l ++ [a])[i]?.any p)
        = (List.range l.length).filter fun i => l[i]?.any p := by
      apply List.filter_congr
      intro i hi
      rw [List.getElem?_append_left (List.mem_range.mp hi)]
    rw [List.length_append, List.length_singleton, List.range_succ, List.filter_append, hold,
      List.length_append, ih, List.countP_append, List.countP_eq_length_filter (l := [a])]
    congr 1
    rw [List.filter_cons, List.filter_cons, List.getElem?_concat_length]
    cases hp : p a <;> simp [hp]

/-- The positions at which a test holds, listed in any order. -/
theorem length_eq_countP {α : Type} {l : List α} {p : α → Bool} {is : List ℕ} (hnodup : is.Nodup)
    (h : ∀ i, i ∈ is ↔ ∃ a, l[i]? = some a ∧ p a = true) : is.length = l.countP p := by
  have hperm : is.Perm ((List.range l.length).filter fun i => l[i]?.any p) := by
    refine (List.perm_ext_iff_of_nodup hnodup (List.nodup_range.filter _)).mpr fun i => ?_
    rw [h, List.mem_filter, List.mem_range, Option.any_eq_true]
    constructor
    · rintro ⟨a, ha, hp⟩
      exact ⟨(List.getElem?_eq_some_iff.mp ha).1, a, ha, hp⟩
    · rintro ⟨-, a, ha, hp⟩
      exact ⟨a, ha, hp⟩
  rw [hperm.length_eq, length_filter_range]

/-- Two tests that never hold together. -/
theorem countP_or {α : Type} {l : List α} {p q : α → Bool}
    (h : ∀ a ∈ l, ¬(p a = true ∧ q a = true)) :
    l.countP (fun a => p a || q a) = l.countP p + l.countP q := by
  induction l with
  | nil => rfl
  | cons a l ih =>
    have ha := h a (List.mem_cons_self ..)
    rw [List.countP_cons, List.countP_cons, List.countP_cons,
      ih fun b hb => h b (List.mem_cons_of_mem _ hb)]
    cases hp : p a with
    | false => simp [add_assoc]
    | true =>
      have hq : q a = false := Bool.eq_false_iff.mpr fun hq => ha ⟨hp, hq⟩
      simp [hq, add_right_comm]

/-! ### The invariant -/

/-- The session ended in a failed `recv`: its thread left the loop with the flag set. -/
def ServerTask.failed (t : ServerTask) : Bool := !t.running && t.online

/-- A `recv` that returns at most `0`. -/
def HostEvent.isFailure : HostEvent → Bool
  | .recv _ none _ _ => true
  | _ => false

namespace Host

/-- `sock_vec` holds the open sessions and the `failures` failed ones, and `client_num` counts them,
unless the server is in a cluster. -/
structure Inv (h : Host) (failures : ℕ) : Prop where
  nodup : h.sockVec.Nodup
  listed : ∀ i, i ∈ h.sockVec ↔ ∃ t, h.tasks[i]? = some t ∧ (t.isOpen || t.failed) = true
  count : h.server.clusterNum = 0 → h.server.clientNum = h.sockVec.length
  failures : h.tasks.countP ServerTask.failed = failures
  isOpen : ∀ t ∈ h.tasks, t.isOpen = t.running
  ended : h.accepting = false → h.overClient = true

theorem inv_setup (w : World) : Inv (setup w) 0 where
  nodup := List.nodup_nil
  listed i := by simp [setup]
  count _ := rfl
  failures := rfl
  isOpen t ht := absurd ht List.not_mem_nil
  ended h := absurd h (by simp [setup])

variable {h h' : Host} {k : ℕ}

/-- A new session. -/
theorem Inv.accept (hinv : Inv h k) (descriptor : Bool) : Inv (h.accept descriptor) k := by
  cases descriptor with
  -- `accept` returned `-1`: nothing is counted, and the loop may end
  | false =>
    exact ⟨hinv.nodup, hinv.listed, hinv.count, hinv.failures, hinv.isOpen, fun hover => by
      simpa [Host.accept, overClient] using hover⟩
  | true =>
    -- the new session is behind all that are listed
    have hlt : ∀ i ∈ h.sockVec, i < h.tasks.length := by
      intro i hi
      obtain ⟨t, ht, -⟩ := (hinv.listed i).mp hi
      exact (List.getElem?_eq_some_iff.mp ht).1
    constructor
    · change (h.sockVec ++ [h.tasks.length]).Nodup
      rw [List.nodup_append]
      refine ⟨hinv.nodup, List.nodup_singleton _, fun i hi j hj => ?_⟩
      rw [List.mem_singleton.mp hj]
      exact (hlt i hi).ne
    · intro i
      change i ∈ h.sockVec ++ [h.tasks.length] ↔ ∃ t, (h.tasks ++ [({} : ServerTask)])[i]? = some t ∧
        (t.isOpen || t.failed) = true
      rw [List.mem_append, List.mem_singleton, hinv.listed]
      rcases lt_trichotomy i h.tasks.length with hi | rfl | hi
      · rw [List.getElem?_append_left hi]
        exact or_iff_left hi.ne
      · rw [List.getElem?_concat_length]
        exact iff_of_true (Or.inr rfl) ⟨_, rfl, rfl⟩
      · have hlong : (h.tasks ++ [({} : ServerTask)]).length ≤ i := by
          rw [List.length_append, List.length_singleton]
          exact hi
        rw [List.getElem?_eq_none hlong, List.getElem?_eq_none hi.le]
        exact or_iff_left hi.ne'
    · intro hcluster
      change h.server.clientNum + 1 = ((h.sockVec ++ [h.tasks.length]).length : Int)
      rw [hinv.count hcluster, List.length_append, List.length_singleton]
      push_cast
      rfl
    · change (h.tasks ++ [({} : ServerTask)]).countP ServerTask.failed = k
      rw [List.countP_append, hinv.failures]
      rfl
    · intro t ht
      rcases List.mem_append.mp ht with ht | ht
      · exact hinv.isOpen t ht
      · rw [List.mem_singleton.mp ht]
    · intro hover
      simpa [Host.accept, overClient] using hover

/-- A round that keeps the session at `i` in `sock_vec`. -/
theorem Inv.setTask (hinv : Inv h k) {i : ℕ} {t : ServerTask} (t' : ServerTask)
    (ht : h.tasks[i]? = some t)
    (hrun : t.running = true) (hopen : t'.isOpen = t'.running)
    (hlisted : (t'.isOpen || t'.failed) = true) {s : Server}
    (hs : s.clusterNum = 0 → h.server.clusterNum = 0 ∧ s.clientNum = h.server.clientNum)
    (hacc : h.accepting = true) :
    Inv { h with server := s, tasks := h.tasks.set i t' } (k + if t'.failed then 1 else 0) := by
  obtain ⟨hi, hti⟩ := List.getElem?_eq_some_iff.mp ht
  have hnot : t.failed = false := by simp [ServerTask.failed, hrun]
  constructor
  · exact hinv.nodup
  · intro j
    change j ∈ h.sockVec ↔ ∃ u, (h.tasks.set i t')[j]? = some u ∧ (u.isOpen || u.failed) = true
    rw [hinv.listed]
    rcases eq_or_ne i j with rfl | hij
    · rw [List.getElem?_set_self hi, ht]
      have hti : (t.isOpen || t.failed) = true := by
        rw [hinv.isOpen t (List.mem_of_getElem? ht), hrun]
        rfl
      exact iff_of_true ⟨t, rfl, hti⟩ ⟨t', rfl, hlisted⟩
    · rw [List.getElem?_set_ne hij]
  · intro hcluster
    obtain ⟨hcluster, hclient⟩ := hs hcluster
    exact hclient.trans (hinv.count hcluster)
  · change (h.tasks.set i t').countP ServerTask.failed = _
    rw [List.countP_set hi, hinv.failures, hti, hnot]
    rfl
  · intro u hu
    rcases List.mem_or_eq_of_mem_set hu with hu | rfl
    · exact hinv.isOpen u hu
    · exact hopen
  · intro hover
    exact absurd hover (by simp [hacc])

/-- A thread that reaches `recv`: a failure leaves the session in `sock_vec`. -/
theorem Inv.recv (hinv : Inv h k) {i : ℕ} {t : ServerTask} (ht : h.tasks[i]? = some t)
    (hrun : t.running = true) (honline : t.online = true) (hacc : h.accepting = true)
    {com : Option Str} {time : Int} {connected : Bool}
    (hstep : h.recv i t com time connected = some h') :
    Inv h' (k + if (HostEvent.recv i com time connected).isFailure then 1 else 0) := by
  have hopen : t.isOpen = true := (hinv.isOpen t (List.mem_of_getElem? ht)).trans hrun
  cases com with
  | none =>
    obtain rfl := Option.some.inj hstep
    -- the thread returns without counting down, with its session still listed
    have hfailed : ServerTask.failed { t with running := false, isOpen := false } = true := honline
    have hnext := hinv.setTask { t with running := false, isOpen := false } ht hrun rfl
      hfailed (s := h.server) (fun hs => ⟨hs, rfl⟩) hacc
    rw [hfailed] at hnext
    exact hnext
  | some com =>
    have hnot : t.failed = false := by simp [ServerTask.failed, hrun]
    rw [Host.recv] at hstep
    split_ifs at hstep
    · -- `quit` only sets the flag, which the thread sees in its next round
      obtain rfl := Option.some.inj hstep
      have hfailed : ServerTask.failed { t with online := false } = false := by
        simp [ServerTask.failed]
      have hnext := hinv.setTask { t with online := false } ht hrun (hopen.trans hrun.symm)
        (by simp [hopen]) (s := h.server) (fun hs => ⟨hs, rfl⟩) hacc
      rw [hfailed] at hnext
      exact hnext
    · obtain ⟨x, hx, rfl⟩ := Option.map_eq_some_iff.mp hstep
      have hnext := hinv.setTask { t with session := x.session } ht hrun
        (hopen.trans hrun.symm) (by simp [hopen]) (s := x.server) (scanAndSend_clientNum hx) hacc
      have hfailed : ServerTask.failed { t with session := x.session } = false := hnot
      rw [hfailed] at hnext
      exact hnext

/-- A thread that sees the flag closes the connection, counts down and erases its session. -/
theorem Inv.offline (hinv : Inv h k) {i : ℕ} {t : ServerTask} (ht : h.tasks[i]? = some t)
    (hrun : t.running = true) (honline : t.online = false) (hacc : h.accepting = true)
    (hstep : h.offline i t = some h') : Inv h' k := by
  obtain ⟨hi, hti⟩ := List.getElem?_eq_some_iff.mp ht
  rw [Host.offline] at hstep
  split_ifs at hstep with hmem
  obtain rfl := Option.some.inj hstep
  have hnot : t.failed = false := by simp [ServerTask.failed, hrun]
  have hdone : ServerTask.failed { t with running := false, isOpen := false } = false := by
    simp [ServerTask.failed, honline]
  constructor
  · exact hinv.nodup.erase i
  · intro j
    change j ∈ h.sockVec.erase i ↔
      ∃ u, (h.tasks.set i { t with running := false, isOpen := false })[j]? = some u ∧
        (u.isOpen || u.failed) = true
    rw [hinv.nodup.mem_erase_iff, hinv.listed]
    -- the thread has closed its connection, and its session is erased
    rcases eq_or_ne i j with rfl | hij
    · rw [List.getElem?_set_self hi]
      refine iff_of_false (fun hne => hne.1 rfl) ?_
      rintro ⟨u, hu, hlisted⟩
      rw [← Option.some.inj hu, hdone] at hlisted
      exact Bool.false_ne_true hlisted
    · rw [List.getElem?_set_ne hij]
      exact and_iff_right hij.symm
  · intro hcluster
    have hpos : 0 < h.sockVec.length := List.length_pos_of_mem hmem
    change h.server.clientNum - 1 = ((h.sockVec.erase i).length : Int)
    rw [hinv.count hcluster, List.length_erase_of_mem hmem]
    omega
  · change (h.tasks.set i _).countP ServerTask.failed = _
    rw [List.countP_set hi, hinv.failures, hti, hnot, hdone]
    rfl
  · intro u hu
    rcases List.mem_or_eq_of_mem_set hu with hu | rfl
    · exact hinv.isOpen u hu
    · rfl
  · intro hover
    exact absurd hover (by simp [hacc])

/-- **One step.** -/
theorem Inv.step (hinv : Inv h k) {e : HostEvent} (hstep : h.step e = some h') :
    Inv h' (k + if e.isFailure then 1 else 0) := by
  cases e with
  | accept descriptor =>
    rw [Host.step] at hstep
    split_ifs at hstep
    obtain rfl := Option.some.inj hstep
    exact hinv.accept descriptor
  | recv i com time connected =>
    rw [Host.step] at hstep
    split_ifs at hstep with hacc
    obtain ⟨t, ht, hstep⟩ := Option.bind_eq_some_iff.mp hstep
    split_ifs at hstep with hloop
    rw [Bool.and_eq_true] at hloop
    exact hinv.recv ht hloop.1 hloop.2 hacc hstep
  | offline i =>
    rw [Host.step] at hstep
    split_ifs at hstep with hacc
    obtain ⟨t, ht, hstep⟩ := Option.bind_eq_some_iff.mp hstep
    split_ifs at hstep with hloop
    rw [Bool.and_eq_true, Bool.not_eq_true'] at hloop
    exact hinv.offline ht hloop.1 hloop.2 hacc hstep

/-- **A run.** -/
theorem Inv.run (hinv : Inv h k) {es : List HostEvent} (hrun : Host.run es h = some h') :
    Inv h' (k + es.countP HostEvent.isFailure) := by
  induction es generalizing h k with
  | nil =>
    obtain rfl := Option.some.inj hrun
    exact hinv
  | cons e es ih =>
    obtain ⟨h₁, hstep, hrun⟩ := Option.bind_eq_some_iff.mp hrun
    have hnext := ih (hinv.step hstep) hrun
    rwa [List.countP_cons, add_comm (es.countP _), ← add_assoc]

/-! ### The accounting -/

/-- `client_num` is the number of open sessions, `sock_vec` holds exactly these, and the accept loop
ends only with more than `MAX_CLIENT_NUM` of them. -/
structure Accounted (h : Host) : Prop where
  count : h.server.clientNum = h.tasks.countP ServerTask.isOpen
  nodup : h.sockVec.Nodup
  listed : ∀ i, i ∈ h.sockVec ↔ ∃ t, h.tasks[i]? = some t ∧ t.isOpen = true
  ended : h.accepting = false → maxClientNum < h.tasks.countP ServerTask.isOpen

/-- The sessions of `sock_vec` are the open ones and the failed ones. -/
theorem Inv.length_sockVec (hinv : Inv h k) :
    h.sockVec.length = h.tasks.countP ServerTask.isOpen + k := by
  have hsum : h.tasks.countP (fun t => t.isOpen || t.failed)
      = h.tasks.countP ServerTask.isOpen + h.tasks.countP ServerTask.failed := by
    have hdisj : ∀ t ∈ h.tasks, ¬(t.isOpen = true ∧ t.failed = true) := by
      intro t ht hboth
      rw [ServerTask.failed, ← hinv.isOpen t ht, hboth.1] at hboth
      exact Bool.false_ne_true hboth.2
    exact countP_or hdisj
  rw [length_eq_countP hinv.nodup hinv.listed, hsum, hinv.failures]

theorem Inv.accounted_iff (hinv : Inv h k) (hcluster : h.server.clusterNum = 0) :
    Accounted h ↔ k = 0 := by
  have hcount := hinv.count hcluster
  rw [hinv.length_sockVec] at hcount
  constructor
  · intro hacc
    have heq := hacc.count
    omega
  · rintro rfl
    rw [Nat.add_zero] at hcount
    -- without a failure, the listed sessions are the open ones
    have hnone : ∀ t ∈ h.tasks, t.failed = false := by
      intro t ht
      simpa using List.countP_eq_zero.mp hinv.failures t ht
    refine ⟨hcount, hinv.nodup, fun i => ?_, fun hover => ?_⟩
    · rw [hinv.listed]
      constructor
      · rintro ⟨t, ht, hlisted⟩
        rw [hnone t (List.mem_of_getElem? ht), Bool.or_false] at hlisted
        exact ⟨t, ht, hlisted⟩
      · rintro ⟨t, ht, hopen⟩
        exact ⟨t, ht, by rw [hopen, Bool.true_or]⟩
    · have hloop := hinv.ended hover
      rw [overClient, decide_eq_true_eq, hcount] at hloop
      exact hloop

/-- **The accounting is right in exactly the runs in which no `recv` returns `0` or an error.** -/
theorem accounted_iff_noFailure {w : World} {es : List HostEvent} (hrun : run es (setup w) = some h)
    (hcluster : h.server.clusterNum = 0) :
    Accounted h ↔ ∀ e ∈ es, e.isFailure = false := by
  have hinv := (inv_setup w).run hrun
  rw [hinv.accounted_iff hcluster, Nat.zero_add, List.countP_eq_zero]
  simp only [Bool.not_eq_true]

/-- Two clients, one of which has left with `quit`. -/
theorem accounted_quit : ∃ h, run [.accept true, .accept true, .recv 0 (some (lit "quit")) 0 false,
    .offline 0] (setup (World.fresh 5001)) = some h ∧ Accounted h := by
  have hrun : ∃ h, run [.accept true, .accept true, .recv 0 (some (lit "quit")) 0 false,
      .offline 0] (setup (World.fresh 5001)) = some h ∧ h.server.clusterNum = 0 := ⟨_, rfl, rfl⟩
  obtain ⟨h, hrun, hcluster⟩ := hrun
  exact ⟨h, hrun, (accounted_iff_noFailure hrun hcluster).mpr (by simp [HostEvent.isFailure])⟩

/-! ### Clients that close their connections -/

theorem run_append (es es' : List HostEvent) (h : Host) :
    run (es ++ es') h = (run es h).bind (run es') := by
  induction es generalizing h with
  | nil => rfl
  | cons e es ih =>
    rw [List.cons_append, run, run, Option.bind_assoc]
    congr 1
    funext h'
    exact ih h'

/-- `n` clients, each of which connects and then closes its connection, as the client program does. -/
def comeAndGo (n : ℕ) : List HostEvent :=
  (List.range n).flatMap fun i => [.accept true, .recv i none 0 false]

/-- A session whose client has closed the connection. -/
def gone : ServerTask := { running := false, isOpen := false }

/-- What they leave: every one of them is still counted. -/
def leftBehind (w : World) (n : ℕ) : Host where
  server := { w := w, clientNum := n }
  tasks := List.replicate n gone
  sockVec := List.range n

/-- One more client is accepted. -/
theorem step_accept (w : World) (n : ℕ) : (leftBehind w n).step (.accept true) = some
    { server := { w := w, clientNum := (n : Int) + 1 }
      tasks := List.replicate n gone ++ [({} : ServerTask)]
      sockVec := List.range n ++ [n]
      accepting := !decide ((n : Int) + 1 > maxClientNum) } := by
  have hlen : (List.replicate n gone).length = n := List.length_replicate
  have hacc : (leftBehind w n).accepting = true := rfl
  rw [Host.step, if_pos hacc, Host.accept, if_pos rfl, leftBehind]
  simp only [hlen, overClient]

/-- One more client comes and goes. -/
theorem run_leftBehind (w : World) {n : ℕ} (hn : n < 100) :
    run [.accept true, .recv n none 0 false] (leftBehind w n) = some (leftBehind w (n + 1)) := by
  have hover : decide ((n : Int) + 1 > maxClientNum) = false := by
    rw [decide_eq_false_iff_not, maxClientNum]
    omega
  have htask : (List.replicate n gone ++ [({} : ServerTask)])[n]? = some {} := by
    rw [List.getElem?_append_right (by simp), List.length_replicate, Nat.sub_self]
    rfl
  have hset : (List.replicate n gone ++ [({} : ServerTask)]).set n gone = List.replicate (n + 1) gone := by
    rw [List.set_append_right _ _ (by simp), List.length_replicate, Nat.sub_self,
      List.replicate_succ']
    rfl
  have hrecv : ∀ h : Host, h.accepting = true → h.tasks[n]? = some {} →
      h.step (.recv n none 0 false) = some { h with tasks := h.tasks.set n gone } := by
    intro h hacc htask
    have hloop : (({} : ServerTask).running && ({} : ServerTask).online) = true := rfl
    rw [Host.step, if_pos hacc, htask, Option.bind_some, if_pos hloop]
    rfl
  have hcons : run [.accept true, .recv n none 0 false] (leftBehind w n)
      = ((leftBehind w n).step (.accept true)).bind fun h => (h.step (.recv n none 0 false)).bind some :=
    rfl
  rw [hcons, step_accept, hover, Option.bind_some, hrecv _ rfl htask, Option.bind_some]
  dsimp only
  rw [hset, leftBehind, List.range_succ, Nat.cast_succ]
  rfl

theorem run_comeAndGo (w : World) {n : ℕ} (hn : n ≤ 100) :
    run (comeAndGo n) (setup w) = some (leftBehind w n) := by
  induction n with
  | zero => rfl
  | succ n ih =>
    have hsplit : comeAndGo (n + 1) = comeAndGo n ++ [.accept true, .recv n none 0 false] := by
      rw [comeAndGo, List.range_succ, List.flatMap_append]
      rfl
    rw [hsplit, run_append, ih (by omega), Option.bind_some, run_leftBehind w (by omega)]

/-- **After a hundred clients have come and gone, the next one ends the accept loop**: it is the only
one that is connected. -/
theorem not_accounted_comeAndGo : ∃ h,
    run (comeAndGo 100 ++ [.accept true]) (setup (World.fresh 5001)) = some h ∧
    h.server.clusterNum = 0 ∧ h.accepting = false ∧ h.tasks.countP ServerTask.isOpen = 1 ∧
    ¬Accounted h := by
  have hrun : run (comeAndGo 100 ++ [.accept true]) (setup (World.fresh 5001)) = some
      { server := { w := World.fresh 5001, clientNum := ((100 : ℕ) : Int) + 1 }
        tasks := List.replicate 100 gone ++ [({} : ServerTask)]
        sockVec := List.range 100 ++ [100]
        accepting := !decide (((100 : ℕ) : Int) + 1 > maxClientNum) } := by
    rw [run_append, run_comeAndGo _ le_rfl, Option.bind_some, run, step_accept, Option.bind_some,
      run]
  have hone : (List.replicate 100 gone ++ [({} : ServerTask)]).countP ServerTask.isOpen = 1 := by
    rw [List.countP_append, List.countP_replicate]
    rfl
  refine ⟨_, hrun, rfl, rfl, hone, fun hacc => ?_⟩
  have hcount := hacc.count
  rw [hone] at hcount
  exact absurd hcount (by norm_num)

end Host

end MuseKv
