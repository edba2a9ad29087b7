import DidCrdt.Core.Hlc

/-!
# The hybrid logical clock

An `Hlc` holds the last timestamp it gave out. Sending and receiving advance it from a reading of the wall
clock, which may go backwards, and from a remote timestamp, which is any timestamp at all. The counter is
incremented with the `+` of the build: with overflow checks it panics on the greatest counter, and without
them it wraps around (`Arithmetic`).
-/

set_option autoImplicit false
set_option relaxedAutoImplicit false

namespace DidCrdt

/-- The greatest 32-bit word. -/
def U32.max : U32 := ⟨2 ^ 32 - 1, by decide⟩

/-- How a build adds machine words: with overflow checks, as a debug build does, or in two's complement,
as a release build does. -/
inductive Arithmetic where
  | checked
  | wrapping
deriving DecidableEq, Repr

/-- `n + 1` on a counter, unless the build panics. -/
def Arithmetic.increment (arith : Arithmetic) (n : U32) : Option U32 :=
  match arith with
  | .checked => if n = U32.max then none else some (n + 1)
  | .wrapping => some (n + 1)

/-- A hybrid logical clock. -/
structure Hlc where
  last : HlcTimestamp
deriving DecidableEq, Repr

namespace Hlc

/-- A clock seeded with a wall time and a node identifier. -/
def new (nowMs nodeId : U64) : Hlc := ⟨⟨nowMs, 0, nodeId⟩⟩

/-- The clock after giving out a timestamp. -/
def issue (last : HlcTimestamp) : HlcTimestamp × Hlc := (last, ⟨last⟩)

def advanceSend (arith : Arithmetic) (clock : Hlc) (nowMs : U64) : Option (HlcTimestamp × Hlc) :=
  let wall := max nowMs clock.last.wallMs
  let logical :=
    if wall = clock.last.wallMs then arith.increment clock.last.logical else some 0
  logical.map fun logical ↦ issue ⟨wall, logical, clock.last.nodeId⟩

def advanceRecv (arith : Arithmetic) (clock : Hlc) (remote : HlcTimestamp) (nowMs : U64) :
    Option (HlcTimestamp × Hlc) :=
  let wall := max (max nowMs clock.last.wallMs) remote.wallMs
  let logical :=
    if wall = clock.last.wallMs ∧ wall = remote.wallMs then
      arith.increment (max clock.last.logical remote.logical)
    else if wall = clock.last.wallMs then arith.increment clock.last.logical
    else if wall = remote.wallMs then arith.increment remote.logical
    else some 0
  logical.map fun logical ↦ issue ⟨wall, logical, clock.last.nodeId⟩

/-- A call on a clock, with what the wall clock reads during it. -/
inductive Call where
  | send (nowMs : U64)
  | recv (remote : HlcTimestamp) (nowMs : U64)
deriving DecidableEq, Repr

/-- The remote timestamp that a call is given. -/
def Call.remote : Call → Option HlcTimestamp
  | .send _ => none
  | .recv remote _ => some remote

/-- What the wall clock reads during a call. -/
def Call.nowMs : Call → U64
  | .send nowMs => nowMs
  | .recv _ nowMs => nowMs

/-- The timestamp that a call returns and the clock after it. -/
def call (arith : Arithmetic) (clock : Hlc) : Call → Option (HlcTimestamp × Hlc)
  | .send nowMs => clock.advanceSend arith nowMs
  | .recv remote nowMs => clock.advanceRecv arith remote nowMs

/-- The timestamps that calls return one after another, and the clock after them. -/
def run (arith : Arithmetic) (clock : Hlc) : List Call → Option (List HlcTimestamp × Hlc)
  | [] => some ([], clock)
  | c :: calls => do
    let (t, after) ← clock.call arith c
    let (issued, final) ← after.run arith calls
    some (t :: issued, final)

end Hlc

end DidCrdt
