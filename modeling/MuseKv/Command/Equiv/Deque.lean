import MuseKv.Command.Deque
import MuseKv.Command.Equiv.Typed

/-!
# List keys are queues

In a run where a key that holds a list is only pushed to and popped from, the replies and what is left
are those of a double-ended queue, whatever the run does to the other keys (`runAll_deque`).  So no
element is lost and none is handed out twice, and with pushes at one end and pops at the other the
elements come out in the order in which they were put in (**`runAll_queue`**).
-/

namespace MuseKv.Command

open General Kvstore

variable {ws : List Str} {auth : UInt8} {t : Int} {n : Kv} {l : List Str} {o : Deque.Op Str}
  {h : Hash} {k : Str} {rs : List Request} {w w' : World} {replies : List Str}

theorem foldl_pushFront (args l : List Str) :
    args.foldl Linkedlist.pushFront l = args.reverse ++ l := by
  induction args generalizing l with
  | nil => rfl
  | cons x args ih => rw [List.foldl_cons, ih, Linkedlist.pushFront, List.reverse_cons,
      List.append_assoc, List.singleton_append]

/-- What a handler of lists does to a live entry that allows it. -/
theorem onList_of_live {c : Call} {level : Kv → UInt8} {body : Kv → List Str → Result}
    (hv : n.v = .list l) (hlive : n.isExpired c.currTime = false) (hauth : level n ≤ c.auth) :
    onList c level (some n) body = body n l := by
  rw [onList, live_of_not_expired hlive, hv]
  exact permitted_of_le hauth _

/-- `lpop` and `rpop`, with the operation they perform. -/
theorem keyEffect_pop {word k : Str} {p : List Str → Str × List Str}
    (hlook : lookup dispatch word 2 = some (.keyed (popList p)))
    (hempty : Deque.step o ([] : List Str) = (none, [])) (hno : dequeReply o none = emptyList)
    (hpop : l ≠ [] → Deque.step o l = (some (p l).1, (p l).2))
    (hyes : ∀ x, dequeReply o (some x) = x)
    (hv : n.v = .list l) (hlive : n.isExpired t = false) (hauth : n.authw ≤ auth) :
    keyEffect [word, k] auth t (some n) =
      some (dequeReply o (Deque.step o l).1, some (n.setV (.list (Deque.step o l).2))) := by
  have hpoplist : popList p ⟨k, [], auth, t⟩ (some n) =
      if l = [] then reply emptyList else some ((p l).1, .write (n.setV (.list (p l).2))) :=
    onList_of_live (c := ⟨k, [], auth, t⟩) hv hlive hauth
  by_cases hl : l = []
  · rw [if_pos hl] at hpoplist
    rw [keyEffect_of_keep hlook hpoplist, hl, hempty, hno, ← hl, ← hv]
    rfl
  · rw [if_neg hl] at hpoplist
    rw [keyEffect_of_write hlook hpoplist, hpop hl, hyes]

/-- **A push or a pop is one operation on the list.** -/
theorem keyEffect_deque (ho : dequeOp ws = some o) (hv : n.v = .list l)
    (hlive : n.isExpired t = false) (hauth : n.authw ≤ auth) :
    keyEffect ws auth t (some n) =
      some (dequeReply o (Deque.step o l).1, some (n.setV (.list (Deque.step o l).2))) := by
  match ws with
  | [] => exact absurd ho (by simp [dequeOp])
  | [_] => exact absurd ho (by simp [dequeOp])
  | [word, k] =>
    rw [dequeOp] at ho
    split_ifs at ho with hpop hpop'
    · obtain rfl := Option.some.inj ho
      rw [hpop]
      refine keyEffect_pop (p := Linkedlist.popFront) rfl rfl rfl (fun hl => ?_) (fun _ => rfl) hv
        hlive hauth
      obtain ⟨x, l, rfl⟩ := List.exists_cons_of_ne_nil hl
      rfl
    · obtain rfl := Option.some.inj ho
      rw [hpop']
      refine keyEffect_pop (p := Linkedlist.popBack) rfl rfl rfl (fun hl => ?_) (fun _ => rfl) hv
        hlive hauth
      rw [Deque.step, Linkedlist.popBack, List.getLast?_eq_some_getLast hl]
      rfl
  | word :: k :: x :: args =>
    rw [dequeOp] at ho
    · split_ifs at ho with hpush hpush'
      · obtain rfl := Option.some.inj ho
        rw [hpush]
        refine keyEffect_of_write (f := lpush) rfl ?_
        refine (onList_of_live (c := ⟨k, x :: args, auth, t⟩) hv hlive hauth).trans ?_
        rw [foldl_pushFront]
        rfl
      · obtain rfl := Option.some.inj ho
        rw [hpush']
        refine keyEffect_of_write (f := rpush) rfl ?_
        refine (onList_of_live (c := ⟨k, x :: args, auth, t⟩) hv hlive hauth).trans ?_
        rw [foldl_pushBack]
        rfl
    · exact List.cons_ne_nil x args

/-! ### Runs -/

theorem keyOf_of_dequeOp (ho : dequeOp ws = some o) : ws[1]? = some (keyOf ws) := by
  match ws with
  | [] => exact absurd ho (by simp [dequeOp])
  | [_] => exact absurd ho (by simp [dequeOp])
  | _ :: _ :: _ => rfl

theorem dequeType_sound : dequeType.Sound where
  named := keyOf_of_dequeOp
  level _ _ _ := rfl
  effect := keyEffect_deque

theorem dequeType_run (os : List (Deque.Op Str)) (l : List Str) :
    dequeType.run os l = (List.zipWith dequeReply os (Deque.run os l).1, Deque.rest os l) := by
  induction os generalizing l with
  | nil => rfl
  | cons o os ih =>
    rw [KeyType.run, ih, Deque.run, List.zipWith_cons_cons]
    rfl

/-- **A list key is a queue.**  Whatever the commands on other keys do, the replies to the pushes and
pops of a run, and the list that is left, are those of a double-ended queue. -/
theorem runAll_deque (hord : ∀ r ∈ rs, Ordinary (words r.com))
    (hrun : runAll rs w = some (replies, w')) (hhere : notHere w.h k = false)
    (hk : w.h.findNode k = some n) (hv : n.v = .list l) (hrs : ∀ r ∈ naming k rs, Permits n r) :
    answersTo k rs replies = List.zipWith dequeReply (dequeOps k rs) (Deque.run (dequeOps k rs) l).1 ∧
      w'.h.findNode k = some (n.setV (.list (Deque.rest (dequeOps k rs) l))) := by
  have hallows : ∀ r ∈ naming k rs, dequeType.Allows n r := by
    intro r hr
    obtain ⟨hsome, hauth, hlive⟩ := hrs r hr
    obtain ⟨o, ho⟩ := Option.isSome_iff_exists.mp hsome
    exact ⟨o, ho, hauth, hlive⟩
  have htyped := runAll_typed dequeType_sound hord hrun hhere hk hv hallows
  rwa [dequeType_run] at htyped

/-- **No element is lost, and none is handed out twice.**  Of a list key that is only pushed to and
popped from, what the pops took out and what is left is what was there and what was pushed; with pushes
at the back and pops at the front it is the same sequence. -/
theorem runAll_queue (hord : ∀ r ∈ rs, Ordinary (words r.com))
    (hrun : runAll rs w = some (replies, w')) (hhere : notHere w.h k = false)
    (hk : w.h.findNode k = some n) (hv : n.v = .list l) (hrs : ∀ r ∈ naming k rs, Permits n r) :
    answersTo k rs replies =
        List.zipWith dequeReply (dequeOps k rs) (Deque.run (dequeOps k rs) l).1 ∧
      w'.h.findNode k = some (n.setV (.list (Deque.rest (dequeOps k rs) l))) ∧
      (Deque.popped (dequeOps k rs) l ++ Deque.rest (dequeOps k rs) l).Perm
        (l ++ (dequeOps k rs).flatMap Deque.Op.pushed) ∧
      ((∀ o ∈ dequeOps k rs, o.IsQueue) →
        Deque.popped (dequeOps k rs) l ++ Deque.rest (dequeOps k rs) l =
          l ++ (dequeOps k rs).flatMap Deque.Op.pushed) := by
  obtain ⟨hreplies, hnode⟩ := runAll_deque hord hrun hhere hk hv hrs
  exact ⟨hreplies, hnode, Deque.run_perm _ _, fun hqueue => Deque.run_fifo hqueue _⟩

/-- A table with a list of one job under `q`. -/
def jobs : World where
  h := (Hash.new 8000).set (lit "q") (.list [lit "a"]) 0 0
  csv := none
  writable := true

/-- Jobs are put in and taken out, with a command on another key between them. -/
def jobRun : List Request :=
  [⟨lit "rpush q b c", 0, 0⟩, ⟨lit "make k v", 0, 1⟩, ⟨lit "lpop q", 0, 2⟩, ⟨lit "lpop q", 0, 3⟩]

theorem jobRun_ordinary : ∀ r ∈ jobRun, Ordinary (words r.com) := by
  have hpop : Ordinary [lit "lpop", lit "q"] := ordinary_of_lookup (f := lpop) (by decide) rfl
  simp only [jobRun, List.forall_mem_cons]
  rw [show words (lit "rpush q b c") = [lit "rpush", lit "q", lit "b", lit "c"] by decide,
    show words (lit "make k v") = [lit "make", lit "k", lit "v"] by decide,
    show words (lit "lpop q") = [lit "lpop", lit "q"] by decide]
  exact ⟨ordinary_of_lookup (f := rpush) (by decide) rfl,
    ordinary_of_lookup (f := make) (by decide) rfl, hpop, hpop, by simp⟩

/-- The jobs come out in their order, and the last one is left. -/
theorem runAll_queue_jobs : ∃ replies w' n,
    runAll jobRun jobs = some (replies, w') ∧
      answersTo (lit "q") jobRun replies = [confirmMsg, lit "a", lit "b"] ∧
      w'.h.findNode (lit "q") = some n ∧ n.v = .list [lit "c"] := by
  have hk : jobs.h.findNode (lit "q") = some ⟨.list [lit "a"], -1, 0, false, 0, 0⟩ := by
    rw [jobs, Hash.findNode_set]
    rfl
  obtain ⟨w', hrun⟩ : ∃ w', runAll jobRun jobs =
    some ([confirmMsg, confirmMsg, lit "a", lit "b"], w') := ⟨_, rfl⟩
  have hops : naming (lit "q") jobRun =
      [⟨lit "rpush q b c", 0, 0⟩, ⟨lit "lpop q", 0, 2⟩, ⟨lit "lpop q", 0, 3⟩] := rfl
  have hpermits : ∀ r ∈ naming (lit "q") jobRun, Permits ⟨.list [lit "a"], -1, 0, false, 0, 0⟩ r := by
    rw [hops]
    simp only [List.forall_mem_cons]
    exact ⟨⟨by decide, by decide, rfl⟩, ⟨by decide, by decide, rfl⟩, ⟨by decide, by decide, rfl⟩,
      by simp⟩
  obtain ⟨hreplies, hnode, -⟩ := runAll_queue jobRun_ordinary hrun (by decide) hk rfl hpermits
  exact ⟨_, w', _, hrun, hreplies, hnode, rfl⟩

end MuseKv.Command
