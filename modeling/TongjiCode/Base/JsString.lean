import Mathlib.Algebra.Order.Ring.Int
import Mathlib.Data.List.Basic

/-!
# Strings of the source

A string of the source is a sequence of UTF-16 code units; lengths and offsets count code units.
-/

namespace TongjiCode

/-- A string: its UTF-16 code units. -/
abbrev JsString := List UInt16

instance : LawfulBEq JsString := inferInstance

namespace JsString

/-- `s.substring(start, end)` for `start ≤ end`. -/
def substring (s : JsString) (start stop : Nat) : JsString := (s.take stop).drop start

theorem substring_length {s : JsString} {start stop : Nat} (h : stop ≤ s.length) :
    (s.substring start stop).length = stop - start := by
  simp [substring, List.length_drop, List.length_take, Nat.min_eq_left h]

theorem take_eq_append (s : JsString) {start stop : Nat} (h : start ≤ stop) :
    s.take stop = s.take start ++ s.substring start stop := by
  have := List.take_append_drop start (s.take stop)
  rw [List.take_take, Nat.min_eq_left h] at this
  exact this.symm

theorem drop_eq_append (s : JsString) {start stop : Nat} (h : start ≤ stop) :
    s.drop start = s.substring start stop ++ s.drop stop := by
  have := List.take_append_drop (stop - start) (s.drop start)
  rw [List.drop_drop, Nat.add_sub_cancel' h] at this
  rw [substring, List.drop_take]
  exact this.symm

theorem substring_append (s : JsString) {start mid stop : Nat} (h : start ≤ mid) (h' : mid ≤ stop) :
    s.substring start stop = s.substring start mid ++ s.substring mid stop := by
  have htake : s.take mid = (s.take stop).take mid := by rw [List.take_take, Nat.min_eq_left h']
  have hdrop := drop_eq_append (s.take stop) h
  rw [substring, ← htake] at hdrop
  exact hdrop

end JsString

end TongjiCode
