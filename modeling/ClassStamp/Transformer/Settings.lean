/-!
# Settings

The options that a transformer is set up with: texts under keys, in the order
in which the keys were first given.

* `Settings.insert` gives a key its last value in its first place.
-/

namespace ClassStamp

/-- Texts under keys. -/
structure Settings where
  /-- The keys with their texts. -/
  entries : List (String × String)
  deriving DecidableEq, Inhabited

namespace Settings

/-- No settings. -/
def empty : Settings := ⟨[]⟩

/-- The text under a key. -/
def get? (s : Settings) (key : String) : Option String := s.entries.lookup key

/-- The keys in order. -/
def keys (s : Settings) : List String := s.entries.map (·.1)

/-- The settings with a text under a key, in the place of the key if it was
there and behind the others if not. -/
def insert (s : Settings) (key value : String) : Settings :=
  if s.keys.contains key then
    ⟨s.entries.map fun e => if e.1 = key then (key, value) else e⟩
  else ⟨s.entries ++ [(key, value)]⟩

/-- The settings that a list of pairs gives, one after the other. -/
def ofList (entries : List (String × String)) : Settings :=
  entries.foldl (fun s e => s.insert e.1 e.2) empty

end Settings

end ClassStamp
