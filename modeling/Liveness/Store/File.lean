import Liveness.Fault

/-!
# Files

The contents of a file, page by page. All pages but the last are full, so the same bytes are
laid out in one way only. A gap that was never written is one page of zeros again and again and
takes no room, however long it is.
-/

namespace Liveness

/-- The bytes of a page. -/
def pageLen : Nat := 65536

theorem pageLen_pos : 0 < pageLen := by decide

/-- The contents of a file. -/
@[ext] structure File where
  /-- The full pages. -/
  pages : Array (Vector UInt8 pageLen)
  /-- The bytes after them. -/
  rest : Array UInt8
  /-- These do not fill a page. -/
  rest_lt : rest.size < pageLen
deriving DecidableEq, Repr

namespace File

/-- The file without bytes. -/
def empty : File := ⟨#[], #[], pageLen_pos⟩

/-- The number of bytes. -/
def size (f : File) : Nat :=
  -- The other way round a closed `pageLen` would be unrolled where a size is compared.
  pageLen * f.pages.size + f.rest.size

/-- The bytes, one after the other. -/
def toList (f : File) : List UInt8 := f.pages.toList.flatMap Vector.toList ++ f.rest.toList

/-- The file with one byte more. -/
def push (f : File) (b : UInt8) : File :=
  if h : f.rest.size + 1 < pageLen then { f with rest := f.rest.push b, rest_lt := by simpa using h }
  else ⟨f.pages.push ⟨f.rest.push b, by have := f.rest_lt; simp; omega⟩, #[], pageLen_pos⟩

/-- The file with more bytes. -/
def append (f : File) (bs : List UInt8) : File :=
  if h : f.rest.size + bs.length < pageLen then
    { f with rest := f.rest ++ bs.toArray, rest_lt := by simpa using h }
  else bs.foldl push f

/-- The file with a gap of zeros at its end. -/
def skip (f : File) (n : Nat) : File :=
  if h : f.rest.size + n < pageLen then
    { f with rest := f.rest ++ Array.replicate n 0, rest_lt := by simpa using h }
  else
    let left := f.rest.size + n - pageLen
    { pages := f.pages.push ⟨f.rest ++ Array.replicate (pageLen - f.rest.size) 0, by have := f.rest_lt; simp; omega⟩ ++
        Array.replicate (left / pageLen) (Vector.replicate pageLen 0)
      rest := Array.replicate (left % pageLen) 0
      rest_lt := by simpa using Nat.mod_lt left pageLen_pos }

/-- The bytes of a page, which may be the one that is not full. -/
def page (f : File) (i : Nat) : Array UInt8 := (f.pages[i]?.map Vector.toArray).getD f.rest

/-- The first bytes of the file, at most all of them. -/
def cut (f : File) (n : Nat) : File where
  pages := f.pages.take (n / pageLen)
  rest := (f.page (n / pageLen)).take (n % pageLen)
  rest_lt := by
    have hmod : n % pageLen < pageLen := Nat.mod_lt n pageLen_pos
    rw [Array.take_eq_extract, Array.size_extract]
    omega

/-- The file with bytes written from a position on; a gap before them is filled with
zeros. To write no bytes leaves the file as it is, wherever the position. -/
def write (f : File) (position : Nat) (bs : List UInt8) : File :=
  if bs.isEmpty then f
  else if f.size ≤ position then (f.skip (position - f.size)).append bs
  else ((f.cut position).append bs).append (f.toList.drop (position + bs.length))

/-- The file cut or filled up with zeros to a length. -/
def resize (f : File) (n : Nat) : File := if f.size ≤ n then f.skip (n - f.size) else f.cut n

/-- The byte at a position. -/
def byte (f : File) (i : Nat) : UInt8 := (f.page (i / pageLen)).getD (i % pageLen) 0

/-- The bytes from a position on. -/
def slice (f : File) (position n : Nat) : List UInt8 := (List.range n).map fun i => f.byte (position + i)

/-- The bytes from a position on, if the file has so many. -/
def read (f : File) (position n : Nat) : Outcome (List UInt8) :=
  if position + n ≤ f.size then .ok (f.slice position n) else .error (.error (.file .tooShort))

end File

end Liveness
