import RasterScript.Proofs.Compilation.Finish
import RasterScript.Proofs.Session.Outputs

/-! Evaluations that come to an end. A loop of the script may go on for ever; where the code
finishes, an evaluation gives one and the same result under every limit that is large enough. -/
namespace RasterScript.Session

open Machine (FinishesAll Proper execAll)

/-- What the session sees at positions is `view`, and evaluating the position comes to an end: the
code of the pixel finishes, after the `init` code if it has yet to run, or else the `init` code
fails. -/
inductive Ends (view : Float → Float → Environment) (s : Session) (x y : Float) : Prop where
  | pixel {es r} : s.initialised = true →
      FinishesAll (view x y) s.code.body (.fresh s.code s.imageValues) es r → Ends view s x y
  | first {es m how fs r} : s.initialised = false →
      FinishesAll (view 0 0) s.code.init
        (.fresh s.code (List.replicate s.code.imageSlots.length 0)) es (m, how) →
      (∀ halt, how ≠ .stop halt) →
      FinishesAll (view x y) s.code.body (.fresh s.code m.imageValues) fs r → Ends view s x y
  | failed {es m halt} : s.initialised = false →
      FinishesAll (view 0 0) s.code.init
        (.fresh s.code (List.replicate s.code.imageSlots.length 0)) es (m, .stop halt) →
      Ends view s x y

variable {s : Session} {g : Gallery} {limit : Nat} {x y : Float}

end RasterScript.Session
