import Fexpr.Value.Basic

/-!
# The arena of scopes

Scopes are kept in an arena, one frame each, in the order in which they were pushed. A frame holds
an environment and names its parent; looking an identifier up walks from a scope outwards. One
scope is active: it is where forms are evaluated and definitions go.

Scopes are released from the top. A frame stays as long as an operand that was written in it is
kept somewhere, since the operand may still be evaluated there. Serial numbers are never given out
twice, so a scope id cannot come to name another frame.
-/

namespace Fexpr

variable {κ : Type}

/-- A scope. -/
structure Frame (κ : Type) where
  /-- What is bound in the scope itself. -/
  env : Environment κ
  /-- The enclosing scope; the outermost one has none. -/
  parent : Option ScopeId
  /-- The running number of the scope. -/
  serial : Nat

/-- The scopes of a context. -/
structure Arena (κ : Type) where
  /-- The frames, the outermost scope first. -/
  frames : Array (Frame κ)
  /-- The scope that is active. -/
  active : ScopeId
  /-- The serial number of the next scope. -/
  nextSerial : Nat

namespace Arena

/-- The arena of a single scope. -/
def ofRoot (env : Environment κ) : Arena κ := ⟨#[⟨env, none, 0⟩], .root, 1⟩

/-- The frame that a scope id names, if it is still there. -/
def frame? (a : Arena κ) (s : ScopeId) : Option (Frame κ) :=
  match a.frames[s.index]? with
  | some f => if f.serial = s.serial then some f else none
  | none => none

/-- Whether the frame that a scope id names is still there. -/
def isLive (a : Arena κ) (s : ScopeId) : Bool := (a.frame? s).isSome

/-- The number of scopes. -/
def size (a : Arena κ) : Nat := a.frames.size

/-- Looks `id` up from the scope `s` outwards through at most `steps` scopes. An id of a scope that
is gone is handed back as an error. -/
def lookupWithin (a : Arena κ) (id : String) :
    (steps : Nat) → ScopeId → Except ScopeId (Option (Value κ))
  | 0, s => .error s
  | steps + 1, s =>
    match a.frame? s with
    | none => .error s
    | some f =>
      match f.env.find? id with
      | some v => .ok (some v)
      | none =>
        match f.parent with
        | none => .ok none
        | some parent => a.lookupWithin id steps parent

/-- Looks `id` up from the scope `s` outwards; the innermost binding wins. A scope encloses only
scopes above it, so the way out has at most `s.index + 1` scopes. -/
def lookupFrom (a : Arena κ) (s : ScopeId) (id : String) : Except ScopeId (Option (Value κ)) :=
  a.lookupWithin id (s.index + 1) s

/-- Looks `id` up from the active scope outwards. -/
def lookup (a : Arena κ) (id : String) : Except ScopeId (Option (Value κ)) :=
  a.lookupFrom a.active id

/-- The environment of the active scope. -/
def env (a : Arena κ) : Except ScopeId (Environment κ) :=
  match a.frame? a.active with
  | some f => .ok f.env
  | none => .error a.active

/-- The environment of the scope around the active one; `none` in the outermost scope. -/
def outerEnv (a : Arena κ) : Except ScopeId (Option (Environment κ)) :=
  match a.frame? a.active with
  | none => .error a.active
  | some f =>
    match f.parent with
    | none => .ok none
    | some parent =>
      match a.frame? parent with
      | some g => .ok (some g.env)
      | none => .error parent

/-- Binds `id` in the active scope. -/
def define (a : Arena κ) (id : String) (v : Value κ) : Arena κ :=
  { a with
    frames := a.frames.modify a.active.index fun f => { f with env := f.env.insert id v } }

/-- Pushes a scope inside `parent`. -/
def push (a : Arena κ) (parent : ScopeId) (env : Environment κ) :
    Except ScopeId (ScopeId × Arena κ) :=
  if a.isLive parent then
    .ok (⟨a.frames.size, a.nextSerial⟩,
      { a with
        frames := a.frames.push ⟨env, some parent, a.nextSerial⟩
        nextSerial := a.nextSerial + 1 })
  else .error parent

/-- Makes a scope active. -/
def activate (a : Arena κ) (s : ScopeId) : Except ScopeId (Arena κ) :=
  if a.isLive s then .ok { a with active := s } else .error s

/-- The operands that the bindings of all scopes keep. -/
def operands (a : Arena κ) : List Operand :=
  a.frames.toList.flatMap fun f => Value.operandsOfFields f.env.entries

/-- Whether an operand of the context `owner` that was written in the scope of the given serial
number is among `held` or kept by a binding. -/
def isPinned (a : Arena κ) (owner : Nat) (held : List Operand) (serial : Nat) : Bool :=
  let written := fun (x : Operand) => x.owner == owner && x.scope.serial == serial
  held.any written || a.operands.any written

/-- Pops up to `n` frames, and stops at one that is active or pinned. -/
def pop (a : Arena κ) (owner : Nat) (held : List Operand) : (n : Nat) → Arena κ
  | 0 => a
  | n + 1 =>
    match a.frames.back? with
    | none => a
    | some top =>
      if top.serial = a.active.serial || a.isPinned owner held top.serial then a
      else pop { a with frames := a.frames.pop } owner held n

/-- Releases the frames above the first `mark` ones, from the top, down to the first one that is
active or pinned. -/
def release (a : Arena κ) (owner : Nat) (held : List Operand) (mark : Nat) : Arena κ :=
  a.pop owner held (a.size - mark)

end Arena

end Fexpr
