import PegMachine.Capture
import PegMachine.Expr.Meaning

/-!
# What is written to capturers

A mark in a successful match writes one thing: a substring with its offset, a substring with a name,
or a position.  To see what a capturer holds in the end, one does not have to look at the others:
it holds what it held before and what was written to it since, in this order.

* `writing` — what a mark writes.
* `items_capturer_writeAll`, `get?_namedCapturer_writeAll`, `items_positionCapturer_writeAll` — what
  capturers hold after a number of writings.
* `stablySorted_captures`, `stablySorted_positions` — the order in which capturers show what they
  hold.
-/

set_option autoImplicit false

namespace PegMachine

/-- What is written to a capturer. -/
inductive Writing where
  /-- A substring with its offset, to the capturer `id`. -/
  | substring (id : String) (x : Capture)
  /-- A substring, under the name `key`, to the capturer `id`. -/
  | named (id key value : String)
  /-- A position, to the capturer `id`. -/
  | position (id : String) (pos : Nat)
deriving DecidableEq

namespace Writing

/-- Puts it where it belongs. -/
def write (w : Writing) (c : Captures) : Captures :=
  match w with
  | substring id x => c.setCapturer id ((c.capturer id).push x)
  | named id key value => c.setNamedCapturer id ((c.namedCapturer id).put key value)
  | position id pos => c.setPositionCapturer id ((c.positionCapturer id).push pos)

/-- Writes one after the other. -/
def writeAll (ws : List Writing) (c : Captures) : Captures := ws.foldl (fun c w => w.write c) c

/-- What is written to the capturer of substrings. -/
def capture? (id : String) : Writing → Option Capture
  | substring id' x => if id = id' then some x else none
  | _ => none

/-- What is written under the name to the capturer of named substrings. -/
def value? (id key : String) : Writing → Option String
  | named id' key' value => if id = id' ∧ key = key' then some value else none
  | _ => none

/-- What is written to the capturer of positions. -/
def position? (id : String) : Writing → Option Nat
  | position id' pos => if id = id' then some pos else none
  | _ => none

end Writing

/-- What the mark writes about a match of the subject between two positions. -/
def Mark.writing (m : Mark) (subject : Array Char) (start stop : Nat) : Writing :=
  match m with
  | substring id => .substring id ⟨start, PegMachine.substring subject start stop⟩
  | named id key => .named id key (PegMachine.substring subject start stop)
  | position id => .position id start

theorem Mark.commit_eq_write (m : Mark) (subject : Array Char) (start stop : Nat) (c : Captures) :
    m.commit subject start stop c = (m.writing subject start stop).write c := by
  cases m <;> rfl

/-- What the action writes, which is a mark. -/
def Firing.writing (subject : Array Char) (f : Firing Mark) : Writing :=
  f.action.writing subject f.start f.stop

/-! ## Names and what they stand for -/

/-- To drop the entries of one name does not change what is found under another. -/
theorem lookup_filter_ne {β : Type} (items : List (String × β)) {name other : String}
    (h : other ≠ name) :
    (items.filter fun x => x.1 != name).lookup other = items.lookup other := by
  induction items with
  | nil => rfl
  | cons x rest ih =>
    obtain ⟨key, value⟩ := x
    by_cases hkey : key = name
    · subst hkey
      have hne : (other == key) = false := by simpa using h
      simpa [List.lookup_cons, hne] using ih
    · rw [List.filter_cons_of_pos (by simpa using hkey), List.lookup_cons, List.lookup_cons, ih]

theorem Shelf.get_put {β : Type} (s : Shelf β) (name other : String) (value empty : β) :
    (s.put name value).get empty other = if other = name then value else s.get empty other := by
  rw [get, put, List.lookup_cons]
  by_cases h : other = name
  · simp [h]
  · have hne : (other == name) = false := by simpa using h
    rw [hne, if_neg h, lookup_filter_ne _ h]
    rfl

theorem NamedCapturer.get?_put (c : NamedCapturer) (name other value : String) :
    (c.put name value).get? other = if other = name then some value else c.get? other := by
  rw [get?, put, List.lookup_cons]
  by_cases h : other = name
  · simp [h]
  · have hne : (other == name) = false := by simpa using h
    rw [hne, if_neg h, lookup_filter_ne _ h]
    rfl

namespace Captures

variable (c : Captures) (id other : String)

@[simp] theorem capturer_setCapturer (x : Capturer) :
    (c.setCapturer id x).capturer other = if other = id then x else c.capturer other :=
  Shelf.get_put ..

@[simp] theorem namedCapturer_setNamedCapturer (x : NamedCapturer) :
    (c.setNamedCapturer id x).namedCapturer other
      = if other = id then x else c.namedCapturer other :=
  Shelf.get_put ..

@[simp] theorem positionCapturer_setPositionCapturer (x : PositionCapturer) :
    (c.setPositionCapturer id x).positionCapturer other
      = if other = id then x else c.positionCapturer other :=
  Shelf.get_put ..

@[simp] theorem capturer_setNamedCapturer (x : NamedCapturer) :
    (c.setNamedCapturer id x).capturer other = c.capturer other := rfl

@[simp] theorem capturer_setPositionCapturer (x : PositionCapturer) :
    (c.setPositionCapturer id x).capturer other = c.capturer other := rfl

@[simp] theorem namedCapturer_setCapturer (x : Capturer) :
    (c.setCapturer id x).namedCapturer other = c.namedCapturer other := rfl

@[simp] theorem namedCapturer_setPositionCapturer (x : PositionCapturer) :
    (c.setPositionCapturer id x).namedCapturer other = c.namedCapturer other := rfl

@[simp] theorem positionCapturer_setCapturer (x : Capturer) :
    (c.setCapturer id x).positionCapturer other = c.positionCapturer other := rfl

@[simp] theorem positionCapturer_setNamedCapturer (x : NamedCapturer) :
    (c.setNamedCapturer id x).positionCapturer other = c.positionCapturer other := rfl

end Captures

/-! ## What capturers hold after writing -/

namespace Writing

theorem items_capturer_write (w : Writing) (c : Captures) (id : String) :
    ((w.write c).capturer id).items.toList
      = (c.capturer id).items.toList ++ (w.capture? id).toList := by
  cases w with
  | substring id' x =>
    by_cases h : id = id' <;> simp [write, capture?, h, Capturer.push]
  | named | position => simp [write, capture?]

theorem get?_namedCapturer_write (w : Writing) (c : Captures) (id key : String) :
    ((w.write c).namedCapturer id).get? key
      = (w.value? id key).or ((c.namedCapturer id).get? key) := by
  cases w with
  | named id' key' value =>
    by_cases hid : id = id'
    · by_cases hkey : key = key' <;> simp [write, value?, hid, hkey, NamedCapturer.get?_put]
    · simp [write, value?, hid]
  | substring | position => simp [write, value?]

theorem items_positionCapturer_write (w : Writing) (c : Captures) (id : String) :
    ((w.write c).positionCapturer id).items.toList
      = (c.positionCapturer id).items.toList ++ (w.position? id).toList := by
  cases w with
  | position id' pos =>
    by_cases h : id = id' <;> simp [write, position?, h, PositionCapturer.push]
  | substring | named => simp [write, position?]

/-- A capturer of substrings gets what is written to it, after what it held. -/
theorem items_capturer_writeAll (ws : List Writing) (c : Captures) (id : String) :
    ((writeAll ws c).capturer id).items.toList
      = (c.capturer id).items.toList ++ ws.filterMap (capture? id) := by
  induction ws generalizing c with
  | nil => simp [writeAll]
  | cons w ws ih =>
    rw [writeAll, List.foldl_cons, ← writeAll, ih, items_capturer_write]
    cases h : w.capture? id <;> simp [h]

/-- A name stands for what was last written under it, if there is anything. -/
theorem get?_namedCapturer_writeAll (ws : List Writing) (c : Captures) (id key : String) :
    ((writeAll ws c).namedCapturer id).get? key
      = (ws.filterMap (value? id key)).getLast?.or ((c.namedCapturer id).get? key) := by
  induction ws generalizing c with
  | nil => simp [writeAll]
  | cons w ws ih =>
    rw [writeAll, List.foldl_cons, ← writeAll, ih, get?_namedCapturer_write]
    cases h : w.value? id key with
    | none => simp [h]
    | some value =>
      rw [List.filterMap_cons_some h, List.getLast?_cons]
      cases (ws.filterMap (value? id key)).getLast? <;> rfl

/-- A capturer of positions gets what is written to it, after what it held. -/
theorem items_positionCapturer_writeAll (ws : List Writing) (c : Captures) (id : String) :
    ((writeAll ws c).positionCapturer id).items.toList
      = (c.positionCapturer id).items.toList ++ ws.filterMap (position? id) := by
  induction ws generalizing c with
  | nil => simp [writeAll]
  | cons w ws ih =>
    rw [writeAll, List.foldl_cons, ← writeAll, ih, items_positionCapturer_write]
    cases h : w.position? id <;> simp [h]

end Writing

/-! ## The order in which captures are shown -/

/-- The second list is the first one in the order of the keys; where keys are equal, nothing has
been moved. -/
structure StablySorted {β : Type} (key : β → Nat) (xs ys : List β) : Prop where
  perm : ys.Perm xs
  sorted : ys.Pairwise fun x y => key x ≤ key y
  stable : ∀ k, ys.filter (fun x => key x = k) = xs.filter fun x => key x = k

theorem stablySorted_mergeSort {β : Type} (key : β → Nat) (xs : List β) :
    StablySorted key xs (xs.mergeSort fun x y => key x ≤ key y) := by
  have htrans : ∀ x y z : β, decide (key x ≤ key y) = true → decide (key y ≤ key z) = true →
      decide (key x ≤ key z) = true := by
    simpa using fun x y z => Nat.le_trans
  have htotal : ∀ x y : β, (decide (key x ≤ key y) || decide (key y ≤ key x)) = true := by
    simpa using fun x y => Nat.le_total (key x) (key y)
  have hperm := List.mergeSort_perm xs fun x y => key x ≤ key y
  refine ⟨hperm, ?_, fun k => ?_⟩
  · simpa using List.pairwise_mergeSort htrans htotal xs
  · -- those with one key are in order from the start, and what is in order stays so
    have hequal : (xs.filter fun x => key x = k).Pairwise fun x y => decide (key x ≤ key y) := by
      refine List.pairwise_of_forall_mem_list fun x hx y hy => ?_
      have hxk : key x = k := by simpa using (List.mem_filter.1 hx).2
      have hyk : key y = k := by simpa using (List.mem_filter.1 hy).2
      simp [hxk, hyk]
    have hsub := (List.sublist_mergeSort htrans htotal hequal List.filter_sublist).filter
      fun x => key x = k
    simp only [List.filter_filter, Bool.and_self] at hsub
    exact (hsub.eq_of_length ((hperm.filter _).length_eq.symm)).symm

theorem stablySorted_captures (c : Capturer) :
    StablySorted Capture.offset c.items.toList c.captures :=
  stablySorted_mergeSort _ _

theorem stablySorted_positions (c : PositionCapturer) :
    StablySorted id c.items.toList c.positions :=
  stablySorted_mergeSort id _

end PegMachine
