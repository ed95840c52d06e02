import RoomRelay.Message.Codec

/-!
The queue of what is on its way to one connection.

An outbox holds a bounded number of items. A frame that finds it full is refused; a close request
is never refused but waits, and waiting closes take free places in their order and ahead of any
later frame. Once the receiver has been closed nothing more is accepted, and what was still
waiting is lost; what is queued can be read until the receiver is dropped.
-/

namespace RoomRelay

/-- A request to end a connection with this code and reason. -/
structure Close where
  code : UInt16
  reason : String
deriving DecidableEq, Repr

inductive Outbound where
  | frame (f : Frame)
  | close (c : Close)
deriving DecidableEq, Repr

inductive Receiver where
  | listening
  | closed
  | dropped
deriving DecidableEq, Repr

/-- Why an outbox does not take an item. -/
inductive Refusal where
  | full
  | gone
deriving DecidableEq, Repr

structure Outbox where
  capacity : Nat
  queued : List Outbound := []
  waiting : List Close := []
  receiver : Receiver := .listening
deriving DecidableEq, Repr

/-- How many items an outbox holds unless told otherwise. -/
def defaultCapacity : Nat := 256

namespace Outbox

/-- Puts an item into the queue unless it is full. -/
def offer (q : Outbox) (item : Outbound) : Except Refusal Outbox :=
  if q.receiver = .listening then
    if q.queued.length < q.capacity ∧ q.waiting = [] then
      return { q with queued := q.queued ++ [item] }
    else throw .full
  else throw .gone

/-- Requests a close. In a full outbox it waits, provided that there is a `background` to wait
in. -/
def requestClose (q : Outbox) (background : Bool) (c : Close) : Outbox :=
  match q.offer (.close c) with
  | .ok q => q
  | .error .full => if background then { q with waiting := q.waiting ++ [c] } else q
  | .error .gone => q

/-- Waiting closes move into the free places. -/
def promote (q : Outbox) : Outbox :=
  let free := q.capacity - q.queued.length
  { q with
    queued := q.queued ++ (q.waiting.take free).map .close
    waiting := q.waiting.drop free }

/-- Reads at most `n` of the items that are queued now; the places they leave are filled after. -/
def read (q : Outbox) (n : Nat) : List Outbound × Outbox :=
  (q.queued.take n, { q with queued := q.queued.drop n }.promote)

/-- All that is on its way, in the order in which it comes out. -/
def contents (q : Outbox) : List Outbound :=
  q.queued ++ q.waiting.map .close

/-- The outbox once its first `n` items have come out. -/
def skip (q : Outbox) (n : Nat) : Outbox :=
  { q with
    queued := q.queued.drop n
    waiting := q.waiting.drop (n - q.queued.length) }.promote

/-- Closes the receiver. -/
def shut (q : Outbox) : Outbox :=
  match q.receiver with
  | .dropped => q
  | _ => { q with waiting := [], receiver := .closed }

/-- Drops the receiver with everything in the queue. -/
def discard (q : Outbox) : Outbox :=
  { q with queued := [], waiting := [], receiver := .dropped }

/-! What comes out is what went in, in that order, whatever waits meanwhile. -/

@[simp]
theorem contents_promote (q : Outbox) : q.promote.contents = q.contents := by
  simp [promote, contents]

theorem contents_offer {q r : Outbox} {item : Outbound} (h : q.offer item = .ok r) :
    r.contents = q.contents ++ [item] := by
  unfold offer at h
  split at h
  · split at h
    · rename_i hc
      cases h
      simp [contents, hc.2]
    · cases h
  · cases h

theorem contents_requestClose (q : Outbox) (c : Close) (h : q.receiver = .listening) :
    (q.requestClose true c).contents = q.contents ++ [.close c] := by
  unfold requestClose
  split
  · rename_i r hr
    exact contents_offer hr
  · simp [contents]
  · rename_i hr
    unfold offer at hr
    simp only [h, if_true] at hr
    split at hr <;> cases hr

theorem contents_read (q : Outbox) (n : Nat) :
    (q.read n).1 ++ (q.read n).2.contents = q.contents := by
  simp only [read, contents_promote]
  simp [contents, ← List.append_assoc]

theorem contents_skip (q : Outbox) (n : Nat) : (q.skip n).contents = q.contents.drop n := by
  simp only [skip, contents_promote]
  simp [contents, List.drop_append, List.map_drop]

end Outbox

end RoomRelay
