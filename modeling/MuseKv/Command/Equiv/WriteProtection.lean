import MuseKv.Command.Equiv.Execute

/-!
# Write protection

A command whose authority is below the write level of an entry leaves the entry as it is, unless the
command is `read` or the entry is expired (`findNode_execute`); so does a run of such commands
(`findNode_runAll`).
-/

namespace MuseKv.Command

open Kvstore

/-- `read` with a password. -/
def isRead (com : Str) : Bool :=
  match words com with
  | [word, _] => word = lit "read"
  | _ => false

/-- Below the write level of a live entry, an allowed action leaves the entry as it is. -/
theorem Allowed.run_eq {c : Call} {n : Kv} {a : KeyAction} (h : Allowed c (some n) a)
    (hw : c.auth < n.authw) (hlive : n.isExpired c.currTime = false) :
    a.run (some n) = some n := by
  have hno : ¬ n.authw ≤ c.auth := UInt8.not_le.mpr hw
  cases h with
  | keep => rfl
  | expired hexp => exact absurd hexp (by simp [hlive])
  | del hw => exact absurd hw hno
  | set hnode => exact absurd (hnode n rfl) hno
  | same => rfl
  | content hw => exact absurd hw hno
  | ttl hw => exact absurd hw hno
  | authr hw => exact absurd hw hno
  | authw hw => exact absurd hw hno

/-- One command. -/
theorem findNode_execute {com : Str} {auth : UInt8} {t : Int} {k : Str} {n : Kv} {w w' : World}
    {reply : Str} (hk : w.h.findNode k = some n) (hread : isRead com = false) (hw : auth < n.authw)
    (hlive : n.isExpired t = false) (h : execute com auth t w = some (reply, w')) :
    w'.h.findNode k = some n := by
  rcases executeWords_cases h with rfl | hstep | ⟨-, b, hsave⟩ | ⟨pw, b, hws, -⟩
  · exact hk
  · obtain ⟨word, k', args, f, a, h', -, -, -, -, hallowed, happ, rfl⟩ := hstep
    rw [Hash.findNode_apply happ]
    split_ifs with heq
    · rw [← heq, hk] at hallowed ⊢
      exact hallowed.run_eq hw hlive
    · exact hk
  · rw [save_h hsave, hk]
  · exact absurd hread (by simp [isRead, hws])

/-- **Write protection.**  A run of commands other than `read`, each with an authority below the
write level of an entry and at a time at which it is not expired, leaves the entry as it was: its
type, its content, its levels and its lifetime. -/
theorem findNode_runAll {rs : List Request} {k : Str} {n : Kv} {w w' : World} {replies : List Str}
    (hk : w.h.findNode k = some n)
    (hrs : ∀ r ∈ rs, isRead r.com = false ∧ r.auth < n.authw ∧ n.isExpired r.currTime = false)
    (hrun : runAll rs w = some (replies, w')) : w'.h.findNode k = some n := by
  refine runAll_invariant (P := fun w => w.h.findNode k = some n) ?_ hk hrun
  intro r hr w w' reply hw h
  obtain ⟨hread, hauth, hlive⟩ := hrs r hr
  exact findNode_execute hw hread hauth hlive h

/-- A table with one entry of write level `5`. -/
def guarded : World where
  h := (Hash.new 8000).set (lit "k") (.string (lit "v")) 0 5
  csv := none
  writable := true

/-- Two refused commands on the guarded entry. -/
theorem findNode_runAll_guarded : ∃ replies w' n,
    runAll [⟨lit "del k", 3, 0⟩, ⟨lit "make k x", 4, 1⟩] guarded = some (replies, w') ∧
      guarded.h.findNode (lit "k") = some n ∧ n.authw = 5 ∧
      w'.h.findNode (lit "k") = some n := by
  have hk : guarded.h.findNode (lit "k") = some ⟨.string (lit "v"), -1, 0, false, 0, 5⟩ := by
    rw [guarded, Hash.findNode_set]
    rfl
  have hrun : runAll [⟨lit "del k", 3, 0⟩, ⟨lit "make k x", 4, 1⟩] guarded
      = some ([notEnoughPermission, notEnoughPermission], guarded) := rfl
  refine ⟨_, _, _, hrun, hk, rfl, findNode_runAll hk ?_ hrun⟩
  simp only [List.forall_mem_cons, List.not_mem_nil]
  exact ⟨⟨by decide, by decide, rfl⟩, ⟨by decide, by decide, rfl⟩, by simp⟩

/-- A list is emptied and sorted. -/
def sortEmptied : List Request := [⟨lit "lmake x a", 0, 0⟩, ⟨lit "lpop x", 0, 0⟩, ⟨lit "sort x", 0, 0⟩]

/-- **A command may end the process**, and every entry with it: sorting an emptied list needs no level of
the protected entry. -/
theorem not_findNode_runAll_sort : ¬ ∀ (before rs : List Request) (replies : List Str) (w : World)
    (k : Str) (n : Kv), runAll before (World.fresh 8000) = some (replies, w) →
    w.h.findNode k = some n →
    (∀ r ∈ rs, isRead r.com = false ∧ r.auth < n.authw ∧ n.isExpired r.currTime = false) →
    ∃ replies' w', runAll rs w = some (replies', w') ∧ w'.h.findNode k = some n := by
  intro h
  obtain ⟨replies, w, n, hbefore, hk, hw, hlive, hfault⟩ : ∃ replies w n,
      runAll [⟨lit "make k v", 5, 0⟩] (World.fresh 8000) = some (replies, w) ∧
        w.h.findNode (lit "k") = some n ∧ n.authw = 5 ∧ n.isExpired 0 = false ∧
        runAll sortEmptied w = none :=
    ⟨_, _, _, rfl, rfl, rfl, rfl, rfl⟩
  have hlow : (0 : UInt8) < n.authw := by
    rw [hw]
    decide
  have hrs : ∀ r ∈ sortEmptied,
      isRead r.com = false ∧ r.auth < n.authw ∧ n.isExpired r.currTime = false := by
    simp only [sortEmptied, List.forall_mem_cons, List.not_mem_nil]
    exact ⟨⟨by decide, hlow, hlive⟩, ⟨by decide, hlow, hlive⟩, ⟨by decide, hlow, hlive⟩, by simp⟩
  obtain ⟨replies', w', hrun, -⟩ := h _ _ _ _ _ _ hbefore hk hrs
  rw [hfault] at hrun
  exact absurd hrun (by simp)

end MuseKv.Command
