import MuseKv.Server.Basic

/-!
# `cluster.cpp`

The lines that `main` reads and the messages it sends to the nodes.  The first line is scanned for the
number of nodes, and every other line is the address of a node.  A `none` result is a fault: an access
outside an array, a division by zero, an exception, or a call of `exit`.
-/

namespace MuseKv

open General Kvstore

namespace Cluster

/-! ### Reading the configuration -/

/-- The loop over the first line: every digit begins a number, and the last number that is not `0`
stays. -/
def scanCount : Str → Int → Int
  | [], clusterNum => clusterNum
  | c :: lr, clusterNum =>
    scanCount lr
      (if isDigit c then if atoi (c :: lr) = 0 then clusterNum else atoi (c :: lr) else clusterNum)

/-- The variables of the loop over the lines. -/
structure Reading where
  lineNum : ℕ := 0
  clusterNum : Int := 0
  start : Int := 0
  eachSlot : Int := 0
  addrList : List Str := []
  myList : List Str := []

/-- `lr + " " + std::to_string(start) + " " + std::to_string(last)`. -/
def info (lr : Str) (start last : Int) : Str :=
  lr ++ lit " " ++ toStr start ++ lit " " ++ toStr last

/-- The assignments to `addr_list[line_num-1]` and `my_list[line_num-1]`. -/
def Reading.store (r : Reading) (lr : Str) (last : Int) : Option Reading :=
  if r.lineNum - 1 < r.addrList.length then
    some { r with
      addrList := r.addrList.set (r.lineNum - 1) (lit "clust " ++ info lr r.start last)
      myList := r.myList.set (r.lineNum - 1) (lit "myinfo " ++ info lr r.start last) }
  else none

/-- The body of the loop over the lines.  The first line divides by `cluster_num`, and `new` throws
on a negative number of cells. -/
def readLine (r : Reading) (lr : Str) : Option Reading :=
  if r.lineNum = 0 then
    let n := scanCount lr r.clusterNum
    if n ≤ 0 then none
    else some { r with
      clusterNum := n
      eachSlot := totalSlotNum / n
      addrList := List.replicate n.toNat []
      myList := List.replicate n.toNat []
      lineNum := 1 }
  else if (r.lineNum : Int) = r.clusterNum then r.store lr (totalSlotNum - 1)
  else (r.store lr (r.start + r.eachSlot - 1)).map fun r =>
    { r with start := r.start + r.eachSlot, lineNum := r.lineNum + 1 }

/-! ### The messages -/

/-- A connection: the address that `connect` gets, and what is sent. -/
structure Connection where
  node : Peer
  coms : List Str

/-- The body of the loop over the nodes.  The address is cut out of a copy of `addr_list[i]`, for
which there are 1000 bytes; `main` gives up when the node replies `cluster fail`. -/
def connectTo (r : Reading) (replies : ℕ → ℕ → Str) (i : ℕ) : Option Connection :=
  r.addrList[i]?.bind fun addr =>
    if (cString addr).length < 1000 then
      (tokens isBlank (cString addr))[1]?.bind fun ip =>
        (tokens isBlank (cString addr))[2]?.bind fun port =>
          ((List.range r.clusterNum.toNat).mapM fun j =>
            if i = j then r.myList[j]? else r.addrList[j]?).bind fun coms =>
              if ∃ j < r.clusterNum.toNat, cString (replies i j) = lit "cluster fail" then none
              else some ⟨(ip, atoi port), coms ++ [lit "quit"]⟩
    else none

/-- The connections that `main` makes for a text; `replies i j` is what the node `i` replies to the
message `j`. -/
def build (lines : List Str) (replies : ℕ → ℕ → Str) : Option (List Connection) :=
  (lines.foldlM readLine {}).bind fun r =>
    (List.range r.clusterNum.toNat).mapM (connectTo r replies)

end Cluster

end MuseKv
