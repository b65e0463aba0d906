import MuseKv.Hash.Heap

/-!
# `ttl_expire_background`

One pass of the body of `while(1)`: `rand()` picks a position, and the loop over the chains subtracts their
sizes from it until it falls into one.  The loop goes on behind that chain, with what `random` has become,
so that a node of every later chain is examined too.  `times i` is what `time(NULL)` returns when a node of
chain `i` is.
-/

namespace MuseKv

open General Hash

namespace HeapHash

/-- What stops a pass. -/
inductive SweepFault
  /-- `node->next_ptr` or `node->is_expired` on `NULL`, behind the last node of a chain. -/
  | pastEnd
  /-- A fault in `del`. -/
  | del
  deriving DecidableEq

variable (times : Fin totalSlotNum → Int)

/-- The loop over the chains, from the value of `random` on. -/
def sweepFrom : List (Fin totalSlotNum) → Int → HeapHash → Except SweepFault HeapHash
  | [], _, t => .ok t
  | i :: is, random, t =>
    if wrap32 (random - t.size i) > 0 then sweepFrom is (wrap32 (random - t.size i)) t
    else
      -- `while(random > 1)` leaves `1`, or what was no greater
      match t.mem.nth (random - 1).toNat (t.h i) with
      | none => .error .pastEnd
      | some c =>
        if c.val.2.isExpired (times i) then
          match t.del c.val.1 with
          | none => .error .del
          | some t' => sweepFrom is (min random 1) t'
        else sweepFrom is (min random 1) t

/-- One pass, `rand` being what `rand()` returned; the first branch is `sleep(10); continue;`. -/
def sweep (rand : ℕ) (t : HeapHash) : Except SweepFault HeapHash :=
  let bound := wrap32 (t.getSize - 1)
  if bound ≤ 0 then .ok t
  else sweepFrom times (List.finRange totalSlotNum) (rand % bound + 1) t

end HeapHash

end MuseKv
