import ClassStamp.Classpath.Entry
import ClassStamp.NameMap

/-!
# Resolution

A context finds classes for one run. It asks its entries in order, makes sure
that the superclasses of every class it reads can be found, brings the classes
directly inside a class along with it, and keeps what it read, so that a later
look-up sees what was edited meanwhile.

* `Context.checkout` takes a class out for editing, `restore` brings it back;
* `Context.resolve` leaves it in, `discard` forgets it;
* `Context.checkSuperclasses` walks up the superclasses without a limit, and
  visits no name twice: where finitely many names have an answer, the walk ends.
-/

namespace ClassStamp.Classpath

/-- The state of resolution in one run. -/
structure Context where
  /-- The entries in search order. -/
  entries : List Entry
  /-- The classes in memory that are not taken out. -/
  cache : NameMap Artifact
  /-- The superclasses of the classes whose superclasses were walked. -/
  superclasses : NameMap (Option ClassName)

namespace Context

/-- A use of the context. What it did before it failed stays. -/
abbrev Action := EStateM ResolutionError Context

/-- The context over the given entries, all of which have to be usable. -/
def build (files : FileTree) (entries : List Entry) : Except ResolutionError Context := do
  entries.forM (Entry.check files)
  return { entries, cache := .empty, superclasses := .empty }

/-- Adds an entry behind the others. -/
def append (files : FileTree) (entry : Entry) : Action Unit := fun ctx =>
  match entry.check files with
  | .error e => .error e ctx
  | .ok () => .ok () { ctx with entries := ctx.entries ++ [entry] }

/-- Whether the class is in memory and not taken out. -/
def isCached (ctx : Context) (n : ClassName) : Bool := ctx.cache.contains n

/-! ## Reading -/

/-- The bytes of a class from the first entry that has it. -/
def find (ctx : Context) (files : FileTree) (n : ClassName) :
    Except ResolutionError (Option ClassBytes) :=
  firstFound (Entry.load files n) ctx.entries

/-- Reads a class that `requested` needs from the entries. -/
def read (ctx : Context) (files : FileTree) (n requested : ClassName) :
    Except ResolutionError Artifact :=
  match ctx.find files n with
  | .error e => .error e
  | .ok none => .error (.notFound n requested)
  | .ok (some found) => (Artifact.ofBytes n found.content).mapError (.malformed n found.origin)

/-- The error of a class in memory that cannot be used. -/
def inMemory (a : Artifact) (reason : ArtifactError) : ResolutionError :=
  .malformed a.name "in-memory" reason

/-- The superclass of a class in memory. -/
def superclassOf (a : Artifact) : Except ResolutionError (Option ClassName) :=
  a.classFile.superName?.mapError fun e => inMemory a (.classFile e)

/-! ## Superclasses -/

/-- The superclass of a class that `requested` needs: as remembered, else that
of the class in memory, else that of the class in the entries. -/
def superclass (files : FileTree) (requested n : ClassName) : Action (Option ClassName) :=
  fun ctx => match ctx.superclasses.get? n with
    | some parent => .ok parent ctx
    | none =>
      let artifact := match ctx.cache.get? n with
        | some a => .ok a
        | none => ctx.read files n requested
      match artifact >>= superclassOf with
      | .error e => .error e ctx
      | .ok parent => .ok parent { ctx with superclasses := ctx.superclasses.insert n parent }

/-- Where a walk up the superclasses is. -/
structure Walk where
  /-- The names that were visited. -/
  visited : List ClassName
  /-- The superclass to look at next. -/
  next : Option ClassName
  /-- The context. -/
  context : Context

/-- What looking for superclasses comes to. -/
abbrev Outcome := EStateM.Result ResolutionError Context Unit

/-- A step of the walk for the class `requested`. The walk is over at a class
that comes with the platform, was visited before or has no superclass. -/
def Walk.step (files : FileTree) (requested : ClassName) (w : Walk) : Outcome ⊕ Walk :=
  match w.next with
  | none => .inl (.ok () w.context)
  | some n =>
    if isBootstrap n || w.visited.contains n then .inl (.ok () w.context)
    else match superclass files requested n w.context with
      | .error e ctx => .inl (.error e ctx)
      | .ok parent ctx => .inr { visited := n :: w.visited, next := parent, context := ctx }

/-- Walks on until the walk is over. -/
def Walk.run (files : FileTree) (requested : ClassName) (w : Walk) : Option Outcome :=
  match w.step files requested with
  | .inl outcome => some outcome
  | .inr w => w |>.run files requested
partial_fixpoint

/-- The same walk, its first `steps` steps by recursion on their number, so that
a short walk is evaluated in proofs too. -/
def Walk.runAhead (files : FileTree) (requested : ClassName) : Nat → Walk → Option Outcome
  | 0, w => w.run files requested
  | steps + 1, w => match w.step files requested with
    | .inl outcome => some outcome
    | .inr w => runAhead files requested steps w

/-- Makes sure that the superclasses of a class can be found. A walk that does
not end never comes to an answer; `.ok` stands for that here. -/
def checkSuperclasses (files : FileTree) (a : Artifact) : Action Unit := fun ctx =>
  match superclassOf a with
  | .error e => .error e ctx
  | .ok next =>
    let start : Walk := { visited := [a.name], next, context := ctx }
    (start.runAhead files a.name 16).getD (.ok () ctx)

/-! ## Classes inside a class -/

/-- Takes a class in, as a part of bringing the classes inside one along. -/
def attach (nested : Artifact) : EStateM ResolutionError (Artifact × Context) Unit :=
  fun (a, ctx) => match Artifact.attachNested nested a with
    | .ok () a => .ok () (a, ctx)
    | .error e a => .error (inMemory a e) (a, ctx)

/-- Takes in the class of the given name if it is in memory, which takes it
out of there. -/
def attachCached (n : ClassName) : EStateM ResolutionError (Artifact × Context) Unit :=
  fun (a, ctx) => match ctx.cache.get? n with
    | none => .ok () (a, ctx)
    | some nested => attach nested (a, { ctx with cache := ctx.cache.erase n })

/-- Brings the classes directly inside a class along with it. Those that are
not in memory are all read first, so that a class that cannot be read leaves
everything as it was; they come before those in memory. -/
def attachMembers (files : FileTree) : EStateM ResolutionError (Artifact × Context) Unit :=
  fun (a, ctx) =>
    let members := do
      let names ← a.classFile.nestedClassNames.mapError fun e => inMemory a (.classFile e)
      let fresh ← (names.filter fun n => !ctx.isCached n).mapM fun n => ctx.read files n a.name
      return (names, fresh)
    match members with
    | .error e => .error e (a, ctx)
    | .ok (names, fresh) =>
      (do fresh.forM attach; names.forM attachCached :
        EStateM ResolutionError (Artifact × Context) Unit) (a, ctx)

/-! ## Taking out and bringing back -/

/-- Puts a class into memory, and the classes held with it beside it. -/
def restore (ctx : Context) (a : Artifact) : Context :=
  let cache := a.nested.foldl (fun cache n => cache.insert n.name n) ctx.cache
  { ctx with cache := cache.insert a.name a.withoutNested }

/-- Reads a class with the classes directly inside it. -/
def load (files : FileTree) (n : ClassName) : Action Artifact := fun ctx =>
  match ctx.read files n n with
  | .error e => .error e ctx
  | .ok a => match checkSuperclasses files a ctx with
    | .error e ctx => .error e ctx
    | .ok () ctx => match attachMembers files (a, ctx) with
      | .error e (_, ctx) => .error e ctx
      | .ok () (a, ctx) => .ok a ctx

/-- Takes a class out, with the classes directly inside it. -/
def checkout (files : FileTree) (n : ClassName) : Action Artifact := fun ctx =>
  match ctx.cache.get? n with
  | none => load files n ctx
  | some a => match attachMembers files (a, { ctx with cache := ctx.cache.erase n }) with
    | .error e (a, ctx) => .error e (ctx.restore a)
    | .ok () (a, ctx) => .ok a ctx

/-- Makes sure that a class is in memory and shows it. -/
def resolve (files : FileTree) (n : ClassName) : Action Artifact := fun ctx =>
  match ctx.cache.get? n with
  | some a => .ok a ctx
  | none => match load files n ctx with
    | .error e ctx => .error e ctx
    | .ok a ctx =>
      let ctx := ctx.restore a
      match ctx.cache.get? n with
      | some a => .ok a ctx
      | none => .error (.notFound n n) ctx

/-- Forgets a class in memory and tells whether it was there. -/
def discard (n : ClassName) : Action Bool := fun ctx =>
  .ok (ctx.isCached n) { ctx with cache := ctx.cache.erase n }

end Context

end ClassStamp.Classpath
