/-! Named lists of messages. Messages enter a queue on the left and leave it on the right. Every
operation that touches two lists does so at once. -/
namespace SandboxWorker.Queue

/-- A list that nobody wrote to is empty. -/
structure Broker where
  list : String → List String

namespace Broker

def empty : Broker := ⟨fun _ => []⟩

def put (b : Broker) (key : String) (items : List String) : Broker :=
  ⟨fun k => if k = key then items else b.list k⟩

def modify (b : Broker) (key : String) (f : List String → List String) : Broker :=
  b.put key (f (b.list key))

@[ext] theorem ext {a b : Broker} (h : ∀ key, a.list key = b.list key) : a = b := by
  cases a; cases b
  simp only [mk.injEq]
  exact funext h

@[simp] theorem list_put_self (b : Broker) (key : String) (items : List String) :
    (b.put key items).list key = items := by
  simp [put]

theorem list_put_of_ne (b : Broker) {key k : String} (items : List String) (h : k ≠ key) :
    (b.put key items).list k = b.list k := by
  simp [put, h]

@[simp] theorem list_modify_self (b : Broker) (key : String) (f : List String → List String) :
    (b.modify key f).list key = f (b.list key) := list_put_self ..

theorem list_modify_of_ne (b : Broker) {key k : String} (f : List String → List String)
    (h : k ≠ key) : (b.modify key f).list k = b.list k := list_put_of_ne _ _ h

/-- Pushes a message onto the left of a queue. -/
def publish (b : Broker) (queue payload : String) : Broker := b.modify queue (payload :: ·)

def claim? (b : Broker) (queue processing : String) : Option (String × Broker) :=
  (b.list queue).getLast?.map fun payload =>
    (payload, (b.modify queue List.dropLast).modify processing (payload :: ·))

/-- Drops one copy of a message, the leftmost. -/
def settle (b : Broker) (processing payload : String) : Broker :=
  b.modify processing (·.erase payload)

/-- Moves a message back to the right of a queue, where it is claimed next. -/
def restore (b : Broker) (queue processing payload : String) : Broker :=
  (b.settle processing payload).modify queue (· ++ [payload])

def bury (b : Broker) (deadLetter processing payload : String) : Broker :=
  (b.settle processing payload).publish deadLetter payload

end Broker
end SandboxWorker.Queue
