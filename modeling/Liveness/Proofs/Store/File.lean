import Mathlib.Tactic.Common
import Liveness.Store.File

/-!
# A file is its bytes

What is done with the pages of a file is what is done with the list of its bytes, and files
with the same bytes are equal (`File.toList_inj`). No other proof opens the pages.
-/

namespace Liveness.File

/-! ### Pages -/

section

variable {pages pages' : List (Vector UInt8 pageLen)}

theorem length_flatMap (pages : List (Vector UInt8 pageLen)) :
    (pages.flatMap Vector.toList).length = pages.length * pageLen := by
  induction pages with
  | nil => simp
  | cons page pages ih => simp [ih, Nat.succ_mul, Nat.add_comm]

theorem take_flatMap {i : Nat} (h : i ≤ pages.length) (more : List UInt8) :
    (pages.flatMap Vector.toList ++ more).take (i * pageLen) = (pages.take i).flatMap Vector.toList := by
  have hlen : ((pages.take i).flatMap Vector.toList).length = i * pageLen := by
    rw [length_flatMap, List.length_take_of_le h]
  nth_rewrite 1 [← List.take_append_drop i pages]
  rw [List.flatMap_append, List.append_assoc, ← hlen, List.take_left]

theorem drop_flatMap {i : Nat} (h : i ≤ pages.length) (more : List UInt8) :
    (pages.flatMap Vector.toList ++ more).drop (i * pageLen) = (pages.drop i).flatMap Vector.toList ++ more := by
  have hlen : ((pages.take i).flatMap Vector.toList).length = i * pageLen := by
    rw [length_flatMap, List.length_take_of_le h]
  nth_rewrite 1 [← List.take_append_drop i pages]
  rw [List.flatMap_append, List.append_assoc, ← hlen, List.drop_left]

theorem flatMap_toList_inj (h : pages.flatMap Vector.toList = pages'.flatMap Vector.toList) : pages = pages' := by
  have hlen : pages.length = pages'.length := by
    have := congrArg List.length h
    rw [length_flatMap, length_flatMap] at this
    exact Nat.eq_of_mul_eq_mul_right pageLen_pos this
  induction pages generalizing pages' with
  | nil => exact (List.length_eq_zero_iff.mp hlen.symm).symm
  | cons page pages ih =>
    obtain ⟨page', pages', rfl⟩ := List.exists_cons_of_length_eq_add_one hlen.symm
    rw [List.flatMap_cons, List.flatMap_cons] at h
    obtain ⟨hpage, hpages⟩ := List.append_inj h (by simp)
    rw [Vector.toList_inj.mp hpage, ih hpages (Nat.succ.inj hlen)]

end

/-! ### Bytes -/

variable {f g : File} {n position : Nat}

@[simp] theorem toList_empty : empty.toList = [] := rfl

@[simp] theorem length_toList (f : File) : f.toList.length = f.size := by
  rw [toList, List.length_append, length_flatMap, Array.length_toList, Array.length_toList, Nat.mul_comm, size]

theorem size_div (f : File) : f.size / pageLen = f.pages.size := by
  rw [size, Nat.mul_add_div pageLen_pos, Nat.div_eq_of_lt f.rest_lt, Nat.add_zero]

/-- **Files with the same bytes are equal.** -/
theorem toList_inj : f.toList = g.toList ↔ f = g := by
  refine ⟨fun h => ?_, fun h => h ▸ rfl⟩
  have hsize : f.pages.size = g.pages.size := by rw [← size_div, ← size_div, ← length_toList, ← length_toList, h]
  have hlen : (f.pages.toList.flatMap Vector.toList).length = (g.pages.toList.flatMap Vector.toList).length := by
    rw [length_flatMap, length_flatMap, Array.length_toList, Array.length_toList, hsize]
  obtain ⟨hpages, hrest⟩ := List.append_inj h hlen
  exact File.ext (Array.toList_inj.mp (flatMap_toList_inj hpages)) (Array.toList_inj.mp hrest)

theorem toList_push (f : File) (b : UInt8) : (f.push b).toList = f.toList ++ [b] := by
  unfold push
  split <;> simp [toList]

theorem toList_foldl_push (f : File) (bs : List UInt8) : (bs.foldl push f).toList = f.toList ++ bs := by
  induction bs generalizing f with
  | nil => simp
  | cons b bs ih =>
    rw [List.foldl_cons, ih, toList_push, List.append_assoc]
    rfl

@[simp] theorem toList_append (f : File) (bs : List UInt8) : (f.append bs).toList = f.toList ++ bs := by
  unfold append
  split
  · simp [toList]
  · exact toList_foldl_push f bs

theorem flatMap_replicate_zero (i : Nat) :
    (List.replicate i (Vector.replicate pageLen (0 : UInt8))).flatMap Vector.toList = List.replicate (i * pageLen) 0 := by
  induction i with
  | zero => simp
  | succ i ih => rw [List.replicate_succ, List.flatMap_cons, ih, Vector.toList_replicate, List.replicate_append_replicate,
      Nat.succ_mul, Nat.add_comm]

@[simp] theorem toList_skip (f : File) (n : Nat) : (f.skip n).toList = f.toList ++ List.replicate n 0 := by
  unfold skip
  split
  · simp [toList]
  · rename_i h
    have hrest := f.rest_lt
    have hsplit : pageLen - f.rest.size + (f.rest.size + n - pageLen) / pageLen * pageLen +
        (f.rest.size + n - pageLen) % pageLen = n := by
      rw [Nat.add_assoc, Nat.div_add_mod']
      omega
    simp [toList, flatMap_replicate_zero, hsplit]

theorem take_page {i r : Nat} (hi : i ≤ f.pages.size) (hr : r ≤ pageLen) :
    ((f.pages.toList.drop i).flatMap Vector.toList ++ f.rest.toList).take r = (f.page i).toList.take r := by
  rw [page]
  rcases Nat.lt_or_eq_of_le hi with hi | rfl
  · have hlen : r ≤ f.pages[i].toList.length := by rwa [Vector.length_toList]
    rw [List.drop_eq_getElem_cons (by simpa using hi), List.flatMap_cons, List.append_assoc, Array.getElem?_eq_getElem hi,
      Array.getElem_toList, List.take_append_of_le_length hlen]
    rfl
  · rw [List.drop_eq_nil_of_le (by simp), Array.getElem?_eq_none (Nat.le_refl _)]
    rfl

/-- To cut a file is to take its first bytes. -/
theorem toList_cut (h : n ≤ f.size) : (f.cut n).toList = f.toList.take n := by
  have hn : n = n / pageLen * pageLen + n % pageLen := (Nat.div_add_mod' n pageLen).symm
  have hfirst : n / pageLen ≤ f.pages.size := f.size_div ▸ Nat.div_le_div_right h
  have hfirst' : n / pageLen ≤ f.pages.toList.length := by rwa [Array.length_toList]
  have hmod : n % pageLen ≤ pageLen := Nat.le_of_lt (Nat.mod_lt n pageLen_pos)
  calc (f.cut n).toList
    _ = (f.pages.toList.take (n / pageLen)).flatMap Vector.toList ++ (f.page (n / pageLen)).toList.take (n % pageLen) := by
      simp [cut, toList]
    _ = f.toList.take (n / pageLen * pageLen + n % pageLen) := by
      rw [List.take_add, toList, take_flatMap hfirst', drop_flatMap hfirst', take_page hfirst hmod]
    _ = f.toList.take n := by rw [← hn]

theorem getElem?_toList {i : Nat} (h : i < f.size) : f.toList[i]? = some (f.byte i) := by
  have hpage : i / pageLen ≤ f.pages.size := f.size_div ▸ Nat.div_le_div_right (Nat.le_of_lt h)
  have hpage' : i / pageLen ≤ f.pages.toList.length := by rwa [Array.length_toList]
  have hmod : i % pageLen + 1 ≤ pageLen := Nat.mod_lt i pageLen_pos
  have hbyte : f.toList[i]? = (f.page (i / pageLen))[i % pageLen]? := by
    calc f.toList[i]?
      _ = (f.toList.drop (i / pageLen * pageLen))[i % pageLen]? := by rw [List.getElem?_drop, Nat.div_add_mod']
      _ = ((f.page (i / pageLen)).toList.take (i % pageLen + 1))[i % pageLen]? := by
        rw [toList, drop_flatMap hpage', ← take_page hpage hmod, List.getElem?_take_of_succ]
      _ = (f.page (i / pageLen))[i % pageLen]? := by rw [List.getElem?_take_of_succ, Array.getElem?_toList]
  obtain ⟨b, hb⟩ : ∃ b, f.toList[i]? = some b := ⟨_, List.getElem?_eq_getElem (by simpa using h)⟩
  rw [hb] at hbyte ⊢
  rw [byte, Array.getD_eq_getD_getElem?, ← hbyte, Option.getD_some]

/-- The bytes that stand in a file are found page by page. -/
theorem slice_eq (h : position + n ≤ f.size) : f.slice position n = (f.toList.drop position).take n := by
  refine List.ext_getElem? fun i => ?_
  rw [slice, List.getElem?_map, List.getElem?_take, List.getElem?_drop]
  split_ifs with hi
  · rw [List.getElem?_range hi, getElem?_toList (by omega), Option.map_some]
  · rw [List.getElem?_eq_none (by simpa using hi), Option.map_none]

/-! ### What is done with a file -/

/-- To write at the end is to append. -/
theorem write_end (h : f.size = position) (bs : List UInt8) : f.write position bs = f.append bs := by
  rw [← toList_inj, toList_append, write]
  split_ifs with hempty hend
  · rw [List.isEmpty_iff.mp hempty, List.append_nil]
  · rw [toList_append, toList_skip, h, Nat.sub_self, List.replicate_zero, List.append_nil]
  · omega

theorem toList_resize (f : File) (n : Nat) :
    (f.resize n).toList = f.toList.take n ++ List.replicate (n - f.size) 0 := by
  rw [resize]
  split_ifs with h
  · rw [toList_skip, List.take_of_length_le (by simpa using h)]
  · rw [toList_cut (by omega), Nat.sub_eq_zero_of_le (by omega), List.replicate_zero, List.append_nil]

@[simp] theorem size_resize (f : File) (n : Nat) : (f.resize n).size = n := by
  rw [← length_toList, toList_resize, List.length_append, List.length_take, List.length_replicate, length_toList]
  omega

/-- A file that goes on where another ends gives the other when it is cut. -/
theorem resize_of_isPrefix (h : g.toList <+: f.toList) : f.resize g.size = g := by
  have hsize : g.size ≤ f.size := by simpa only [length_toList] using h.length_le
  rw [← toList_inj, toList_resize, Nat.sub_eq_zero_of_le hsize, List.replicate_zero, List.append_nil, ← length_toList g]
  exact (List.prefix_iff_eq_take.mp h).symm

theorem read_eq (f : File) (position n : Nat) : f.read position n =
    if position + n ≤ f.size then .ok ((f.toList.drop position).take n) else .error (.error (.file .tooShort)) := by
  rw [read]
  split_ifs with h
  · rw [slice_eq h]
  · rfl

/-- What stands in a file is read. -/
theorem read_of_eq (before bs after : List UInt8) (h : f.toList = before ++ bs ++ after) :
    f.read before.length bs.length = .ok bs := by
  have hsize : f.size = before.length + bs.length + after.length := by
    rw [← length_toList, h, List.length_append, List.length_append]
  rw [read_eq, if_pos (by omega), h, List.append_assoc, List.drop_left, List.take_left]

/-- A file that goes on where another ends has the bytes of the other. -/
theorem read_of_isPrefix (hfile : f.toList <+: g.toList) (h : position + n ≤ f.size) :
    g.read position n = f.read position n := by
  obtain ⟨more, hmore⟩ := hfile
  have hsize : f.size ≤ g.size := by
    rw [← length_toList, ← length_toList, ← hmore, List.length_append]
    omega
  rw [read_eq, read_eq, if_pos h, if_pos (by omega), ← hmore, List.drop_append_of_le_length (by simp; omega),
    List.take_append_of_le_length (by simp; omega)]

end Liveness.File
