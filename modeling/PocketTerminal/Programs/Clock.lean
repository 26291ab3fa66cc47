/-! # Time in steps

Time comes as a number of seconds in single precision. It is cut into slices of a frame,
or saved up until it makes whole steps. -/
namespace PocketTerminal.Clock

def atLeast (limit x : Float32) : Float32 := if x < limit then limit else x

/-- The number, but no more than a limit; what is no number counts as the limit. -/
def atMost (limit x : Float32) : Float32 := if x ≤ limit then x else limit

def clamp (low high x : Float32) : Float32 :=
  if x < low then low else if high < x then high else x

/-- The slices that a time is cut into, last first: whole frames, and what is left in the
end. Positive numbers are ordered as their bits are. There are no slices where taking a
frame away leaves a time that is no shorter, because they would never end. -/
def slicesFrom (frame : Float32) (found : List Float32) (left : Float32) :
    Option (List Float32) :=
  if 0 < left then
    let slice := atMost frame left
    let rest := left - frame
    if 0 < rest then
      if _h : rest.toBits.toNat < left.toBits.toNat then slicesFrom frame (slice :: found) rest
      else none
    else some (slice :: found)
  else some found
termination_by left.toBits.toNat

def slices (frame secs : Float32) : Option (List Float32) :=
  (slicesFrom frame [] secs).map List.reverse

def due (step saved : Float32) : Nat × Float32 :=
  if step ≤ saved then
    let rest := saved - step
    if _h : rest.toBits.toNat < saved.toBits.toNat then
      let (n, left) := due step rest
      (n + 1, left)
    else (0, saved)
  else (0, saved)
termination_by saved.toBits.toNat

/-- The fractional part, toward zero and with the sign of the number. -/
def fractional (x : Float32) : Float32 :=
  if !x.isFinite then 0.0 / 0.0
  else if x.abs < 1.0 then x
  else
    let rest := if x.abs < 16777216.0 then x.abs - x.abs.toUInt32.toFloat32 else 0.0
    if x < 0.0 then -rest else rest

end PocketTerminal.Clock
