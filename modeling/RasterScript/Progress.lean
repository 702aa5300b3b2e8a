/-! What a listener hears of a sweep. -/
namespace RasterScript

inductive Event where
  /-- The number of pixels to come. -/
  | size (pixels : Nat)
  | start
  | update (fraction : Float)
  | finish
deriving DecidableEq, Repr

structure Tracker where
  size : Nat
  /-- The pixels between two updates. -/
  interval : Nat
  done : Nat
  /-- The pixels that were done at the last update. -/
  lastReported : Nat
  /-- What the listener has heard, the newest first. -/
  heard : List Event
deriving Repr

namespace Tracker

/-- The size is announced before the start. A listener that wants no interval of its own hears of
every hundredth part. -/
def start (wanted size : Nat) : Tracker where
  size := size
  interval := if wanted = 0 then max (size / 100) 1 else wanted
  done := 0
  lastReported := 0
  heard := [.start, .size size]

def tell (t : Tracker) (e : Event) : Tracker := { t with heard := e :: t.heard }

def report (t : Tracker) : Tracker :=
  { t with lastReported := t.done }.tell (.update (Float.ofNat t.done / Float.ofNat t.size))

/-- One pixel more is done. The last one has no update of its own. -/
def step (t : Tracker) : Tracker :=
  let t := { t with done := t.done + 1 }
  if t.done % t.interval = 0 && t.done < t.size then t.report else t

/-- All is done, which is reported unless it was. -/
def finish (t : Tracker) : Tracker :=
  let t :=
    if t.size = 0 || t.lastReported ≠ t.size then { t with lastReported := t.size }.tell (.update 1)
    else t
  t.tell .finish

end Tracker

namespace Progress

def events (wanted size done : Nat) (finished : Bool) : List Event :=
  let t := Nat.repeat Tracker.step done (.start wanted size)
  (if finished then t.finish else t).heard.reverse

end Progress

end RasterScript
