import LoxLang.Bindings
import LoxLang.Text.Quoted

/-!
# Frames

The variables of a running program live in frames. A frame belongs to one execution of a block or
function, or holds the globals, and is linked to the frame around it, so that frames form a forest
whose chains of links the variables of a place are found on. Frames are shared: a write through one
chain is seen through every chain that the frame lies on.

A name can be looked up in two ways: by walking the chain to the nearest frame that holds the name,
or by counting a known distance along the chain.
-/

namespace LoxLang

/-- The number of a frame, in the order in which frames were made. -/
abbrev FrameId := Nat

/-- A frame of variables with values in `α`. -/
structure Frame (α : Type) where
  values : Bindings α
  enclosing : Option FrameId
deriving DecidableEq, Repr

/-- All frames that were made so far. -/
structure Frames (α : Type) where
  toArray : Array (Frame α)

/-- What can be wrong with counting along a chain: it ends too early, or the frame reached does not
hold the name. -/
inductive FrameError where
  | pastOutermost
  | missing (name : String)
deriving DecidableEq, Repr

/-- The wording of a frame error: the name that was looked up, if a frame was reached. -/
def FrameError.message? : FrameError → Option String
  | pastOutermost => none
  | missing name => some (Text.quoted name)

namespace Frames

variable {α : Type}

/-- No frames. -/
def empty : Frames α := ⟨#[]⟩

/-- The number that the next frame will have. -/
def size (fs : Frames α) : Nat := fs.toArray.size

/-- A frame by its number. -/
def frame? (fs : Frames α) (f : FrameId) : Option (Frame α) := fs.toArray[f]?

/-- Makes a frame. Its number is the number of frames before. -/
def push (fs : Frames α) (frame : Frame α) : Frames α := ⟨fs.toArray.push frame⟩

/-- The frame around a frame. -/
def enclosing? (fs : Frames α) (f : FrameId) : Option FrameId :=
  (fs.frame? f).bind (·.enclosing)

/-- What a frame itself binds to a name. -/
def local? (fs : Frames α) (f : FrameId) (name : String) : Option α :=
  (fs.frame? f).bind (·.values.get? name)

/-- Binds a name in a frame, whether or not the frame holds it already. -/
def define (fs : Frames α) (f : FrameId) (name : String) (a : α) : Frames α :=
  ⟨fs.toArray.modify f fun frame => { frame with values := frame.values.insert name a }⟩

/-!
## Walking to the nearest holder

A name is looked up frame by frame until one holds it. Evaluation does so from the global frame
only, for names without a distance.
-/

/-- The nearest frame on a chain that holds a name. Links lead to older frames, and the walk follows
no others. -/
def holder? (fs : Frames α) (f : FrameId) (name : String) : Option FrameId :=
  if (fs.local? f name).isSome then some f
  else
    match fs.enclosing? f with
    | none => none
    | some g => if g < f then holder? fs g name else none
termination_by f

/-- The value of a name in the nearest frame that holds it. -/
def get? (fs : Frames α) (f : FrameId) (name : String) : Option α :=
  (fs.holder? f name).bind (fs.local? · name)

/-- Writes a name in the nearest frame that holds it. -/
def assign? (fs : Frames α) (f : FrameId) (name : String) (a : α) : Option (Frames α) :=
  (fs.holder? f name).map (fs.define · name a)

/-!
## Counting along the chain

Local variables are looked up in this way, at the distance that was found when the program was
resolved. A frame is not asked whether it is the right one: it may be missing, and it may not hold
the name.
-/

/-- The frame at a distance along a chain. -/
def ancestor? (fs : Frames α) : Nat → FrameId → Option FrameId
  | 0, f => some f
  | distance + 1, f => (fs.enclosing? f).bind (ancestor? fs distance)

/-- The value of a name in the frame at a distance. -/
def getAt (fs : Frames α) (distance : Nat) (f : FrameId) (name : String) : Except FrameError α :=
  match fs.ancestor? distance f with
  | none => .error .pastOutermost
  | some g =>
    match fs.local? g name with
    | none => .error (.missing name)
    | some a => .ok a

/-- Writes a name in the frame at a distance, whether or not the frame holds it already. -/
def assignAt (fs : Frames α) (distance : Nat) (f : FrameId) (name : String) (a : α) :
    Except FrameError (Frames α) :=
  match fs.ancestor? distance f with
  | none => .error .pastOutermost
  | some g => .ok (fs.define g name a)

end Frames

end LoxLang
