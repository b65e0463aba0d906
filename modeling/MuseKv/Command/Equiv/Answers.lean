import MuseKv.Command.Handlers

/-!
# What holds of every answer of a handler

`Answers P r` says that the reply and the action of a result satisfy `P`.  The opening tests pass it
on: what is left to show of a handler is what it does behind its tests.
-/

namespace MuseKv.Command

open Kvstore

/-- The reply and the action of a result satisfy `P`, if it is not a fault. -/
def Answers (P : Str → KeyAction → Prop) (r : Result) : Prop := ∀ msg a, r = some (msg, a) → P msg a

variable {P : Str → KeyAction → Prop} {c : Call} {node : Option Kv}

theorem Answers.fault : Answers P none := fun _ _ h => absurd h (by simp)

theorem Answers.act {msg : Str} {a : KeyAction} (h : P msg a) : Answers P (some (msg, a)) := by
  intro msg' a' ha
  obtain ⟨rfl, rfl⟩ := Prod.mk.inj (Option.some.inj ha)
  exact h

theorem Answers.map {α : Type} {o : Option α} {f : α → Str × KeyAction}
    (h : ∀ x, o = some x → P (f x).1 (f x).2) : Answers P (o.map f) := by
  intro msg a ha
  obtain ⟨x, hx, hfx⟩ := Option.map_eq_some_iff.mp ha
  have hP := h x hx
  rwa [hfx] at hP

theorem Answers.ite {p : Prop} [Decidable p] {r s : Result} (hr : p → Answers P r)
    (hs : ¬ p → Answers P s) : Answers P (if p then r else s) := by
  split_ifs with h
  · exact hr h
  · exact hs h

theorem Answers.permitted {level : UInt8} {body : Result} (hno : P notEnoughPermission .keep)
    (h : level ≤ c.auth → Answers P body) : Answers P (permitted c level body) :=
  .ite (fun _ => .act hno) fun hlt => h (UInt8.not_lt.mp hlt)

theorem Answers.withinAuth {x : Int} {body : Result} (hno : P notEnoughPermission .keep)
    (h : x ≤ c.auth.toNat → Answers P body) : Answers P (withinAuth c x body) :=
  .ite (fun _ => .act hno) fun hlt => h (not_lt.mp hlt)

theorem Answers.withInt {str bad : Str} {body : Int → Result} (hno : P bad .keep)
    (h : ∀ x, strtoint str = some (true, x) → Answers P (body x)) :
    Answers P (withInt str bad body) := by
  rw [Command.withInt]
  split
  next => exact .fault
  next => exact .act hno
  next x hx => exact h x hx

theorem Answers.overwritable {body : Result} (hno : P notEnoughPermission .keep)
    (h : Answers P body) : Answers P (overwritable c node body) := by
  cases node with
  | none => exact h
  | some n => exact .permitted hno fun _ => h

/-- On an entry that is not expired. -/
theorem Answers.live {body : Kv → Result} (hlive : ∀ n, node = some n → n.isExpired c.currTime = false)
    (hno : P (noSuchKey c.k) .keep) (h : ∀ n, node = some n → Answers P (body n)) :
    Answers P (live c node body) := by
  cases node with
  | none => exact .act hno
  | some n =>
    rw [Command.live, if_neg (by rw [hlive n rfl]; exact Bool.false_ne_true)]
    exact h n rfl

/-! ### Handlers that keep or remove the entry when a test fails -/

section Opening

variable (hkeep : ∀ msg, P msg .keep) (hdel : ∀ msg, P msg .del)

include hkeep

theorem Answers.ofPresent {body : Kv → Result} (h : ∀ n, node = some n → Answers P (body n)) :
    Answers P (Command.present c node body) := by
  cases node with
  | none => exact .act (hkeep _)
  | some n => exact h n rfl

include hdel

theorem Answers.ofLive {body : Kv → Result} (h : ∀ n, node = some n → Answers P (body n)) :
    Answers P (Command.live c node body) := by
  cases node with
  | none => exact .act (hkeep _)
  | some n => exact .ite (fun _ => .act (hdel _)) fun _ => h n rfl

theorem Answers.ofList {level : Kv → UInt8} {body : Kv → List Str → Result}
    (h : ∀ n l, node = some n → Answers P (body n l)) : Answers P (Command.onList c level node body) := by
  refine .ofLive hkeep hdel fun n hn => ?_
  split
  next l _ => exact .permitted (hkeep _) fun _ => h n l hn
  next => exact .act (hkeep _)

theorem Answers.ofSet {level : Kv → UInt8} {body : Kv → Hashset → Result}
    (h : ∀ n s, node = some n → Answers P (body n s)) : Answers P (Command.onSet c level node body) := by
  refine .ofLive hkeep hdel fun n hn => ?_
  split
  next s _ => exact .permitted (hkeep _) fun _ => h n s hn
  next => exact .act (hkeep _)

theorem Answers.ofHashmap {level : Kv → UInt8} {body : Kv → Hashmap → Result}
    (h : ∀ n m, node = some n → n.v = .hashmap m → Answers P (body n m)) :
    Answers P (Command.onHashmap c level node body) := by
  refine .ofLive hkeep hdel fun n hn => ?_
  split
  next m hm => exact .permitted (hkeep _) fun _ => h n m hn hm
  next => exact .act (hkeep _)

end Opening

end MuseKv.Command
