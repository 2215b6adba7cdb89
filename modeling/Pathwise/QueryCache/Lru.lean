import Pathwise.QueryCache

/-!
# A bounded table

Keeps the most recently used entries, newest first, up to a capacity. Reading or writing an entry
makes it the newest; the oldest is dropped when there is no more room.
-/

namespace Pathwise

structure Lru (β : Type) where
  capacity : Nat
  entries : List (String × β) := []

namespace Lru

variable {β : Type}

def find? (c : Lru β) (key : String) : Option β := (c.entries.find? (·.1 == key)).map (·.2)

/-- Puts an entry in front, and drops what does not fit any more. -/
def insert (c : Lru β) (key : String) (b : β) : Lru β :=
  { c with entries := ((key, b) :: c.entries.filter (·.1 != key)).take c.capacity }

/-- The entry of a key, which becomes the newest. -/
def get? (c : Lru β) (key : String) : Option (β × Lru β) :=
  (c.find? key).map fun b => (b, c.insert key b)

/-- As the table of a cache; there has to be room for an answer. -/
def front : Front (Lru CachedAnswer) where
  make size :=
    if size ≤ 0 then .error "must provide a positive size" else .ok { capacity := size.toNat }
  get? key c := c.get? key
  insert key a c := c.insert key a

end Lru
end Pathwise
