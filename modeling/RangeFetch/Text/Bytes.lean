/-!
# Text in bytes

Text that comes in as bytes: UTF-8, and ended by a zero byte where it stands in memory.

So `c_str` reads the texts of a foreign caller, and `from_params` those of the environment.

Headlines:
* **`ofBytes?`** reads UTF-8; **`untilNul`** is the text that a zero byte ends, and
  `zero_notMem_untilNul` says that it holds none.
-/

namespace RangeFetch.Text

/-- The text that the bytes are the UTF-8 form of. -/
def ofBytes? (bytes : List UInt8) : Option String :=
  String.fromUTF8? ⟨bytes.toArray⟩

/-- The bytes in front of the first zero byte. -/
def untilNul (bytes : List UInt8) : List UInt8 :=
  bytes.takeWhile (· != 0)

theorem zero_notMem_untilNul (bytes : List UInt8) : 0 ∉ untilNul bytes := by
  intro h
  have := List.all_eq_true.mp (List.all_takeWhile (p := (· != 0)) (l := bytes)) 0 h
  simp at this

end RangeFetch.Text
