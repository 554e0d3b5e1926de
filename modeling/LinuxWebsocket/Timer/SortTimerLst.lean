import LinuxWebsocket.Memory

/-!
# The sorted timer list

`sort_timer_lst` of `linklistTimer.h`: timers on the heap, chained both ways
between `head` and `tail`. The memory holds one cell for each allocated timer;
reading or writing through a null or released pointer is a fault. A callback is
whatever the program does to the rest of its state, so it cannot touch the list.
-/

namespace LinuxWebsocket

/-- The address of a timer; a C++ pointer is an `Option Ptr`. -/
abbrev Ptr := Nat

/-- `class util_timer`; `cbFunc` and `userData` name the function and the record pointed to. -/
structure UtilTimer where
  expire : Int
  cbFunc : Nat
  userData : Nat
  prev : Option Ptr
  next : Option Ptr
  deriving DecidableEq, Repr

/-- `class sort_timer_lst` with the memory its timers live in. -/
structure SortTimerLst where
  /-- The allocated timers. -/
  heap : Ptr → Option UtilTimer
  head : Option Ptr
  tail : Option Ptr
  /-- How many timers were ever allocated. A walk over distinct timers is no
  longer, so this is the fuel of the loops. -/
  news : Nat

namespace SortTimerLst

/-- The list the constructor builds, before any allocation. -/
def empty : SortTimerLst := ⟨fun _ => none, none, none, 0⟩

/-- Following a pointer. -/
def deref (m : SortTimerLst) : Option Ptr → Except Fault UtilTimer
  | none => .error .null
  | some p => match m.heap p with
    | none => .error .freed
    | some t => .ok t

/-- `p->next` -/
def getNext (m : SortTimerLst) (p : Option Ptr) : Except Fault (Option Ptr) := do
  return (← m.deref p).next

/-- `p->prev` -/
def getPrev (m : SortTimerLst) (p : Option Ptr) : Except Fault (Option Ptr) := do
  return (← m.deref p).prev

/-- `p->expire` -/
def getExpire (m : SortTimerLst) (p : Option Ptr) : Except Fault Int := do
  return (← m.deref p).expire

/-- Overwriting the timer a pointer leads to. -/
def modify (m : SortTimerLst) (p : Option Ptr) (f : UtilTimer → UtilTimer) :
    Except Fault SortTimerLst :=
  match p with
  | none => .error .null
  | some x => match m.heap x with
    | none => .error .freed
    | some t => .ok { m with heap := Function.update m.heap x (some (f t)) }

/-- `p->next = q` -/
def setNext (m : SortTimerLst) (p q : Option Ptr) : Except Fault SortTimerLst :=
  m.modify p fun t => { t with next := q }

/-- `p->prev = q` -/
def setPrev (m : SortTimerLst) (p q : Option Ptr) : Except Fault SortTimerLst :=
  m.modify p fun t => { t with prev := q }

/-- `p->expire = e` -/
def setExpire (m : SortTimerLst) (p : Option Ptr) (e : Int) : Except Fault SortTimerLst :=
  m.modify p fun t => { t with expire := e }

/-- `head = p` -/
def setHead (m : SortTimerLst) (p : Option Ptr) : SortTimerLst := { m with head := p }

/-- `tail = p` -/
def setTail (m : SortTimerLst) (p : Option Ptr) : SortTimerLst := { m with tail := p }

/-- `delete p` -/
def delete (m : SortTimerLst) (p : Option Ptr) : Except Fault SortTimerLst :=
  match p with
  | none => .ok m
  | some x => match m.heap x with
    | none => .error .freed
    | some _ => .ok { m with heap := Function.update m.heap x none }

/-- `new util_timer` at the address the allocator picked, with its fields filled in. -/
def new (m : SortTimerLst) (p : Ptr) (expire : Int) (cbFunc userData : Nat) : SortTimerLst :=
  { m with
    heap := Function.update m.heap p (some ⟨expire, cbFunc, userData, none, none⟩)
    news := m.news + 1 }

/-- The `while` loop of the private `add_timer` and the `if(!tmp)` after it. -/
def insertLoop (timer : Option Ptr) :
    Nat → Option Ptr → Option Ptr → SortTimerLst → Except Fault SortTimerLst
  | 0, _, _, _ => .error .diverges
  | fuel + 1, prev, tmp, m =>
    match tmp with
    | none => do
      let m ← m.setNext prev timer
      let m ← m.setPrev timer prev
      let m ← m.setNext timer none
      .ok (m.setTail timer)
    | some _ => do
      if (← m.getExpire timer) < (← m.getExpire tmp) then
        let m ← m.setNext timer tmp
        let m ← m.setPrev timer prev
        let m ← m.setNext prev timer
        m.setPrev tmp timer
      else
        insertLoop timer fuel tmp (← m.getNext tmp) m

/-- The private `add_timer(timer, lst_head)`. -/
def addTimerFrom (m : SortTimerLst) (timer lstHead : Option Ptr) : Except Fault SortTimerLst := do
  insertLoop timer (m.news + 1) lstHead (← m.getNext lstHead) m

/-- The public `add_timer(timer)`. -/
def addTimer (m : SortTimerLst) (timer : Option Ptr) : Except Fault SortTimerLst := do
  if timer = none then
    return m
  if m.head = none then
    return (m.setHead timer).setTail timer
  if (← m.getExpire timer) < (← m.getExpire m.head) then
    let m ← m.setNext timer m.head
    let m ← m.setPrev m.head timer
    return m.setHead timer
  else
    m.addTimerFrom timer (← m.getNext m.head)

/-- `adjust_timer(timer)` -/
def adjustTimer (m : SortTimerLst) (timer : Option Ptr) : Except Fault SortTimerLst := do
  if timer = none then
    return m
  let tmp ← m.getNext timer
  if tmp = none then
    return m
  if (← m.getExpire timer) < (← m.getExpire tmp) then
    return m
  if timer = m.head then
    let m := m.setHead (← m.getNext m.head)
    let m ← m.setPrev m.head none
    let m ← m.setNext timer none
    m.addTimerFrom timer m.head
  else
    let m ← m.setNext (← m.getPrev timer) (← m.getNext timer)
    let m ← m.setPrev (← m.getNext timer) (← m.getPrev timer)
    m.addTimerFrom timer (← m.getNext timer)

/-- `del_timer(timer)` -/
def delTimer (m : SortTimerLst) (timer : Option Ptr) : Except Fault SortTimerLst := do
  if timer = none then
    return m
  if timer = m.head ∧ timer = m.tail then
    let m ← m.delete timer
    return (m.setHead none).setTail none
  if timer = m.head then
    let m := m.setHead (← m.getNext m.head)
    let m ← m.setPrev m.head none
    m.delete timer
  else if timer = m.tail then
    let m := m.setTail (← m.getPrev m.tail)
    let m ← m.setNext m.tail none
    m.delete timer
  else
    let m ← m.setNext (← m.getPrev timer) (← m.getNext timer)
    let m ← m.setPrev (← m.getNext timer) (← m.getPrev timer)
    m.delete timer

/-- What the loop of `tick` does to the list after the callback of `tmp`. -/
def dropHead (m : SortTimerLst) (tmp : Option Ptr) : Except Fault SortTimerLst := do
  let m := m.setHead (← m.getNext tmp)
  let m ← if m.head = none then .ok m else m.setPrev m.head none
  m.delete tmp

/-- The `while(tmp)` loop of `tick`; `call` runs the callback of the timer at an
address on that timer's user data. -/
def tickLoop {ω : Type} (call : Ptr → Nat → Nat → ω → ω) (cur : Int) :
    Nat → Option Ptr → SortTimerLst → ω → Except Fault (SortTimerLst × ω)
  | 0, _, _, _ => .error .diverges
  | fuel + 1, tmp, m, w =>
    match tmp with
    | none => .ok (m, w)
    | some p => do
      let t ← m.deref tmp
      if cur < t.expire then
        return (m, w)
      let w := call p t.cbFunc t.userData w
      let m ← m.dropHead tmp
      tickLoop call cur fuel m.head m w

/-- `tick()` at the clock reading `cur`. -/
def tick {ω : Type} (call : Ptr → Nat → Nat → ω → ω) (cur : Int) (m : SortTimerLst) (w : ω) :
    Except Fault (SortTimerLst × ω) :=
  if m.head = none then .ok (m, w) else tickLoop call cur (m.news + 1) m.head m w

end SortTimerLst

end LinuxWebsocket
