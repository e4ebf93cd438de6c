import Mathlib.Algebra.Group.Nat.Defs
import Mathlib.Tactic.Common
import Liveness.Reader

/-!
# What readers do

Five things are said of a reader. It *takes* given bytes if it reads them as a value and
leaves what follows them. It *gives* values with a property if every value it reads has it.
It *inverts* a way of writing values if the bytes it took for a value are those written for
it. It is *stable* if bytes added after those it was given make no difference to a value
that was read. It *blames* the bytes if it fails with nothing but a damage of them.
-/

namespace Liveness

/-- Reading the bytes of a number gives the number, less what did not fit. -/
theorem ofBytes_toBytes_mod (width n : Nat) : ofBytes (toBytes width n) = n % 256 ^ width := by
  induction width generalizing n with
  | zero => simp [toBytes, ofBytes, Nat.mod_one]
  | succ width ih =>
    have hpow : 256 ^ (width + 1) = 256 * 256 ^ width := Nat.pow_succ'
    rw [toBytes, ofBytes, ih, UInt8.toNat_ofNat', hpow, Nat.mod_mul]

/-- The bytes of the number of some bytes are these bytes. -/
theorem toBytes_ofBytes (bs : List UInt8) : toBytes bs.length (ofBytes bs) = bs := by
  induction bs with
  | nil => rfl
  | cons b bs ih =>
    have hlow : UInt8.ofNat (b.toNat + 256 * ofBytes bs) = b := by
      rw [← UInt8.toNat_inj, UInt8.toNat_ofNat']
      have := b.toNat_lt
      omega
    have hhigh : (b.toNat + 256 * ofBytes bs) / 256 = ofBytes bs := by
      have := b.toNat_lt
      omega
    rw [ofBytes, List.length_cons, toBytes, hlow, hhigh, ih]

theorem ofBytes_lt (bs : List UInt8) : ofBytes bs < 256 ^ bs.length := by
  have hmod := ofBytes_toBytes_mod bs.length (ofBytes bs)
  rw [toBytes_ofBytes] at hmod
  rw [hmod]
  exact Nat.mod_lt _ (Nat.pow_pos (by decide))

/-- What does not fit is not written. -/
theorem toBytes_mod (width n : Nat) : toBytes width (n % 256 ^ width) = toBytes width n := by
  have hbytes := toBytes_ofBytes (toBytes width n)
  rwa [length_toBytes, ofBytes_toBytes_mod] at hbytes

namespace Reader

variable {α β : Type}

/-- The reader takes exactly the bytes `bs`, whatever follows them, and gives `a`. -/
def Takes (r : Reader α) (bs : List UInt8) (a : α) : Prop :=
  ∀ offset rest position, r ⟨offset, bs ++ rest, position⟩ = .ok (a, ⟨offset, rest, position + bs.length⟩)

theorem Takes.pure (a : α) : Takes (Pure.pure a : Reader α) [] a := fun _ _ _ => rfl

/-- After one reader has taken its bytes, the next goes on with the rest. -/
theorem Takes.bind_apply {r : Reader α} {bs : List UInt8} {a : α} (h : Takes r bs a) (f : α → Reader β)
    (offset : Nat) (rest : List UInt8) (position : Nat) :
    (r >>= f) ⟨offset, bs ++ rest, position⟩ = f a ⟨offset, rest, position + bs.length⟩ := by
  change (r ⟨offset, bs ++ rest, position⟩ >>= fun x => f x.1 x.2) = _
  rw [h]
  rfl

theorem Takes.bind {r : Reader α} {bs cs : List UInt8} {a : α} {f : α → Reader β} {b : β} (h : Takes r bs a)
    (hf : Takes (f a) cs b) : Takes (r >>= f) (bs ++ cs) b := by
  intro offset rest position
  rw [List.append_assoc, h.bind_apply, hf, List.length_append, Nat.add_assoc]

theorem Takes.map {r : Reader α} {bs : List UInt8} {a : α} (h : Takes r bs a) (f : α → β) :
    Takes (do return f (← r)) bs (f a) := by
  have : Takes (r >>= fun x => Pure.pure (f x)) (bs ++ []) (f a) := h.bind (Takes.pure (f a))
  rwa [List.append_nil] at this

theorem takes_take (bs : List UInt8) : Takes (take bs.length) bs bs := by
  intro offset rest position
  simp [take]

theorem takes_number_mod (width n : Nat) : Takes (number width) (toBytes width n) (n % 256 ^ width) := by
  have htake := takes_take (toBytes width n)
  rw [length_toBytes] at htake
  have := htake.map ofBytes
  rwa [ofBytes_toBytes_mod] at this

theorem takes_number {width n : Nat} (h : n < 256 ^ width) : Takes (number width) (toBytes width n) n := by
  have := takes_number_mod width n
  rwa [Nat.mod_eq_of_lt h] at this

theorem takes_word32 (w : UInt32) : Takes word32 (bytes32 w) w := by
  have hnumber : Takes (number 4) (toBytes 4 w.toNat) w.toNat := takes_number w.toNat_lt
  have := hnumber.map UInt32.ofNat
  rwa [UInt32.ofNat_toNat] at this

theorem takes_word64 (w : UInt64) : Takes word64 (bytes64 w) w := by
  have hnumber : Takes (number 8) (toBytes 8 w.toNat) w.toNat := takes_number w.toNat_lt
  have := hnumber.map UInt64.ofNat
  rwa [UInt64.ofNat_toNat] at this

theorem takes_byte (b : UInt8) : Takes byte [b] b := by
  have hnumber : Takes (number 1) (toBytes 1 b.toNat) b.toNat := takes_number b.toNat_lt
  have := hnumber.map UInt8.ofNat
  rw [UInt8.ofNat_toNat, toBytes, toBytes, UInt8.ofNat_toNat] at this
  exact this

theorem takes_key (k : Key) : Takes key k.encode k := (takes_word64 k.fp).bind ((takes_word32 k.point).map _)

theorem takes_many {r : Reader α} {enc : α → List UInt8} (as : List α) (h : ∀ a ∈ as, Takes r (enc a) a) :
    Takes (many r as.length) (as.flatMap enc) as := by
  induction as with
  | nil => exact Takes.pure []
  | cons a as ih => exact (h a (by simp)).bind ((ih fun b hb => h b (by simp [hb])).map _)

theorem bind_eq_ok {r : Reader α} {f : α → Reader β} {c c' : Cursor} {b : β} :
    (r >>= f) c = .ok (b, c') ↔ ∃ a c₁, r c = .ok (a, c₁) ∧ f a c₁ = .ok (b, c') := by
  change (r c >>= fun x => f x.1 x.2) = _ ↔ _
  cases r c with
  | error e =>
    constructor
    · intro h
      cases h
    · rintro ⟨a, c₁, h, -⟩
      cases h
  | ok x =>
    constructor
    · intro h
      exact ⟨x.1, x.2, rfl, h⟩
    · rintro ⟨a, c₁, h, hf⟩
      cases h
      exact hf

/-! ### What is read -/

/-- Whatever is read has the property. -/
def Gives (r : Reader α) (P : α → Prop) : Prop := ∀ c a c', r c = .ok (a, c') → P a

theorem Gives.pure {P : α → Prop} {a : α} (h : P a) : Gives (Pure.pure a : Reader α) P := by
  intro c b c' hb
  cases hb
  exact h

theorem Gives.fail (P : α → Prop) (damage : Damage) : Gives (fail damage : Reader α) P := by
  intro c a c' h
  cases h

theorem Gives.throw (P : α → Prop) (f : Fault) : Gives (throw f : Reader α) P := by
  intro c a c' h
  cases h

theorem gives_true (r : Reader α) : Gives r fun _ => True := fun _ _ _ _ => trivial

theorem Gives.bind {r : Reader α} {f : α → Reader β} {Q : α → Prop} {P : β → Prop} (h : Gives r Q)
    (hf : ∀ a, Q a → Gives (f a) P) : Gives (r >>= f) P := by
  intro c b c' hb
  obtain ⟨a, c₁, ha, hb⟩ := bind_eq_ok.mp hb
  exact hf a (h c a c₁ ha) c₁ b c' hb

theorem gives_length_many (r : Reader α) (n : Nat) : Gives (many r n) fun as => as.length = n := by
  induction n with
  | zero => exact .pure rfl
  | succ n ih => exact (gives_true r).bind fun a _ => ih.bind fun as has => .pure (by simp [has])

theorem exists_of_read {r : Reader α} {offset : Nat} {bytes : List UInt8} {a : α} (h : r.read offset bytes = .ok a) :
    ∃ c, r ⟨offset, bytes, 0⟩ = .ok (a, c) := by
  rw [read] at h
  cases hr : r ⟨offset, bytes, 0⟩ with
  | error f =>
    rw [hr] at h
    cases h
  | ok x =>
    rw [hr] at h
    cases h
    exact ⟨x.2, rfl⟩

/-- What is read with a reader has the property that the reader gives. -/
theorem Gives.of_read {r : Reader α} {P : α → Prop} (h : Gives r P) {offset : Nat} {bytes : List UInt8} {a : α}
    (ha : r.read offset bytes = .ok a) : P a := by
  obtain ⟨c, hc⟩ := exists_of_read ha
  exact h _ _ _ hc

theorem Gives.many {r : Reader α} {P : α → Prop} (h : Gives r P) (n : Nat) :
    Gives (many r n) fun as => ∀ a ∈ as, P a := by
  induction n with
  | zero => exact .pure (by simp)
  | succ n ih => exact h.bind fun a ha => ih.bind fun as has => .pure (by simpa using ⟨ha, has⟩)

/-! ### What was taken -/

theorem take_eq_ok {n : Nat} {c c' : Cursor} {bs : List UInt8} (h : take n c = .ok (bs, c')) :
    c.rest = bs ++ c'.rest ∧ bs.length = n := by
  rw [take] at h
  split_ifs at h with hlen
  cases h
  exact ⟨(List.take_append_drop n c.rest).symm, hlen⟩

/-- The bytes taken for a value are those written for it. -/
def Inverts (r : Reader α) (enc : α → List UInt8) : Prop := ∀ c a c', r c = .ok (a, c') → c.rest = enc a ++ c'.rest

theorem Inverts.map {r : Reader α} {enc : α → List UInt8} {enc' : β → List UInt8} {f : α → β} (h : Inverts r enc)
    (hf : ∀ a, enc' (f a) = enc a) : Inverts (do return f (← r)) enc' := by
  intro c b c' hb
  obtain ⟨a, c₁, ha, hb⟩ := bind_eq_ok.mp hb
  cases hb
  rw [hf]
  exact h c a _ ha

theorem number_eq_ok {width n : Nat} {c c' : Cursor} (h : number width c = .ok (n, c')) :
    c.rest = toBytes width n ++ c'.rest ∧ n < 256 ^ width := by
  obtain ⟨bs, c₁, hbs, hn⟩ := bind_eq_ok.mp h
  cases hn
  obtain ⟨hrest, rfl⟩ := take_eq_ok hbs
  rw [toBytes_ofBytes]
  exact ⟨hrest, ofBytes_lt bs⟩

theorem gives_number_lt (width : Nat) : Gives (number width) (· < 256 ^ width) := fun _ _ _ h => (number_eq_ok h).2

theorem inverts_number (width : Nat) : Inverts (number width) (toBytes width) := fun _ _ _ h => (number_eq_ok h).1

theorem inverts_byte : Inverts byte fun b => [b] := (inverts_number 1).map fun _ => rfl

theorem inverts_word32 : Inverts word32 bytes32 := by
  refine (inverts_number 4).map fun n => ?_
  rw [bytes32, UInt32.toNat_ofNat']
  exact toBytes_mod 4 n

theorem inverts_word64 : Inverts word64 bytes64 := by
  refine (inverts_number 8).map fun n => ?_
  rw [bytes64, UInt64.toNat_ofNat']
  exact toBytes_mod 8 n

theorem inverts_key : Inverts key Key.encode := by
  intro c k c' h
  obtain ⟨fp, c₁, hfp, h⟩ := bind_eq_ok.mp h
  obtain ⟨point, c₂, hpoint, h⟩ := bind_eq_ok.mp h
  cases h
  rw [inverts_word64 _ _ _ hfp, inverts_word32 _ _ _ hpoint, ← List.append_assoc]
  rfl

theorem Inverts.many {r : Reader α} {enc : α → List UInt8} (h : Inverts r enc) (n : Nat) :
    Inverts (many r n) fun as => as.flatMap enc := by
  induction n with
  | zero =>
    intro c as c' has
    cases has
    rfl
  | succ n ih =>
    intro c as c' has
    obtain ⟨a, c₁, ha, has⟩ := bind_eq_ok.mp has
    obtain ⟨as, c₂, has, hcons⟩ := bind_eq_ok.mp has
    cases hcons
    rw [h _ _ _ ha, ih _ _ _ has, ← List.append_assoc]
    rfl

/-! ### What is read of a part -/

/-- What was read is read again when more bytes follow. -/
def Stable (r : Reader α) : Prop :=
  ∀ c a c', r c = .ok (a, c') → ∀ more,
    r { c with rest := c.rest ++ more } = .ok (a, { c' with rest := c'.rest ++ more })

theorem Stable.pure (a : α) : Stable (Pure.pure a : Reader α) := by
  intro c b c' h more
  cases h
  rfl

theorem Stable.fail (damage : Damage) : Stable (fail damage : Reader α) := by
  intro c a c' h
  cases h

theorem Stable.bind {r : Reader α} {f : α → Reader β} (h : Stable r) (hf : ∀ a, Stable (f a)) : Stable (r >>= f) := by
  intro c b c' hb more
  obtain ⟨a, c₁, ha, hb⟩ := bind_eq_ok.mp hb
  exact bind_eq_ok.mpr ⟨a, _, h c a c₁ ha more, hf a c₁ b c' hb more⟩

theorem stable_take (n : Nat) : Stable (take n) := by
  intro c bs c' h more
  rw [take] at h
  split_ifs at h with hlen
  cases h
  rw [List.length_take] at hlen
  have hle : n ≤ c.rest.length := by omega
  rw [take, List.take_append_of_le_length hle, List.drop_append_of_le_length hle, if_pos (by rw [List.length_take]; omega)]

theorem stable_number (n : Nat) : Stable (number n) := (stable_take n).bind fun _ => .pure _

theorem stable_byte : Stable byte := (stable_number 1).bind fun _ => .pure _

theorem stable_word32 : Stable word32 := (stable_number 4).bind fun _ => .pure _

theorem stable_word64 : Stable word64 := (stable_number 8).bind fun _ => .pure _

theorem stable_key : Stable key := stable_word64.bind fun _ => stable_word32.bind fun _ => .pure _

theorem Stable.many {r : Reader α} (h : Stable r) (n : Nat) : Stable (many r n) := by
  induction n with
  | zero => exact .pure []
  | succ n ih => exact h.bind fun _ => ih.bind fun _ => .pure _

/-- A refusal because of the damage stands when more bytes follow. -/
def Refuses (damage : Damage) (r : Reader α) : Prop :=
  ∀ c place, r c = .error (.corrupt place damage) → ∀ more,
    r { c with rest := c.rest ++ more } = .error (.corrupt place damage)

section Refuses

variable {damage : Damage}

theorem Refuses.pure (a : α) : Refuses damage (Pure.pure a : Reader α) := by
  intro c place h
  cases h

theorem Refuses.fail (damage' : Damage) : Refuses damage (fail damage' : Reader α) := fun _ _ h _ => h

theorem Refuses.bind {r : Reader α} {f : α → Reader β} (h : Refuses damage r) (hr : Stable r)
    (hf : ∀ a, Refuses damage (f a)) : Refuses damage (r >>= f) := by
  intro c place hfail more
  change (r c >>= fun x => f x.1 x.2) = _ at hfail
  change (r _ >>= fun x => f x.1 x.2) = _
  rcases ha : r c with fault | ⟨a, c'⟩
  · rw [ha] at hfail
    obtain rfl := Except.error.inj hfail
    rw [h c place ha more]
    rfl
  · rw [ha] at hfail
    rw [hr c a c' ha more]
    exact hf a c' place hfail more

theorem refuses_take (n : Nat) : Refuses .trailing (take n) := by
  intro c place h
  rw [take] at h
  split_ifs at h
  cases h

theorem refuses_number (n : Nat) : Refuses .trailing (number n) := (refuses_take n).bind (stable_take n) fun _ => .pure _

theorem refuses_byte : Refuses .trailing byte := (refuses_number 1).bind (stable_number 1) fun _ => .pure _

theorem refuses_word32 : Refuses .trailing word32 := (refuses_number 4).bind (stable_number 4) fun _ => .pure _

theorem refuses_word64 : Refuses .trailing word64 := (refuses_number 8).bind (stable_number 8) fun _ => .pure _

theorem refuses_key : Refuses .trailing key :=
  refuses_word64.bind stable_word64 fun _ => refuses_word32.bind stable_word32 fun _ => .pure _

theorem Refuses.many {r : Reader α} (h : Refuses damage r) (hr : Stable r) (n : Nat) : Refuses damage (many r n) := by
  induction n with
  | zero => exact .pure []
  | succ n ih => exact h.bind hr fun _ => ih.bind (hr.many n) fun _ => .pure _

theorem Refuses.of_read {r : Reader α} (h : Refuses damage r) {offset place : Nat} {bytes : List UInt8}
    (hread : r.read offset bytes = .error (.corrupt place damage)) (more : List UInt8) :
    r.read offset (bytes ++ more) = .error (.corrupt place damage) := by
  rw [read] at hread ⊢
  have hfail : r ⟨offset, bytes, 0⟩ = .error (.corrupt place damage) := by
    rcases ha : r ⟨offset, bytes, 0⟩ with fault | x
    · rw [ha] at hread
      cases hread
      rfl
    · rw [ha] at hread
      cases hread
  rw [h _ _ hfail more]
  rfl

end Refuses

/-- A reader that takes the bytes `bs` reads the same value of any part of what starts with
them, or none. -/
theorem Takes.of_isPrefix {r : Reader α} {bs rest xs : List UInt8} {a a' : α} {offset position : Nat} {c : Cursor}
    (h : Takes r bs a) (hr : Stable r) (hxs : xs <+: bs ++ rest) (hread : r ⟨offset, xs, position⟩ = .ok (a', c)) :
    a' = a ∧ ∃ ys position', c = ⟨offset, ys, position'⟩ ∧ ys <+: rest := by
  obtain ⟨more, hmore⟩ := hxs
  have hall := hr _ _ _ hread more
  simp only [hmore] at hall
  rw [h] at hall
  injection hall with hall
  injection hall with ha hc
  obtain ⟨offset', ys, position'⟩ := c
  injection hc with hoffset hrest
  exact ⟨ha.symm, ys, position', by rw [hoffset], more, hrest.symm⟩

/-! ### How readers fail -/

/-- The reader fails only because of a damage, and the place that it names for it is related to
where the bytes start. -/
def Blames (r : Reader α) (place : Nat → Nat → Prop) : Prop :=
  ∀ c, (∃ a c', r c = .ok (a, c') ∧ c'.offset = c.offset) ∨
    ∃ offset damage, r c = .error (.corrupt offset damage) ∧ place c.offset offset

variable {place : Nat → Nat → Prop}

theorem Blames.pure (a : α) : Blames (Pure.pure a : Reader α) place := fun c => .inl ⟨a, c, rfl, rfl⟩

theorem blames_atEnd : Blames atEnd place := fun c => .inl ⟨_, c, rfl, rfl⟩

theorem Blames.throw {offset : Nat} (h : ∀ start, place start offset) (damage : Damage) :
    Blames (throw (.corrupt offset damage) : Reader α) place :=
  fun c => .inr ⟨offset, damage, rfl, h c.offset⟩

theorem Blames.bind {r : Reader α} {f : α → Reader β} (h : Blames r place) (hf : ∀ a, Blames (f a) place) :
    Blames (r >>= f) place := by
  intro c
  rcases h c with ⟨a, c₁, hread, hoffset⟩ | ⟨offset, damage, hfail, hplace⟩
  · have hbind : (r >>= f) c = f a c₁ := by
      change (r c >>= fun x => f x.1 x.2) = _
      rw [hread]
      rfl
    rw [hbind, ← hoffset]
    exact hf a c₁
  · refine .inr ⟨offset, damage, ?_, hplace⟩
    change (r c >>= fun x => f x.1 x.2) = _
    rw [hfail]
    rfl

theorem Blames.many {r : Reader α} (h : Blames r place) (n : Nat) : Blames (many r n) place := by
  induction n with
  | zero => exact .pure []
  | succ n ih => exact h.bind fun _ => ih.bind fun _ => .pure _

section Leaves

-- A reader that runs out of bytes names the place where they start.
variable [Std.Refl place]

theorem blames_fail (damage : Damage) : Blames (fail damage : Reader α) place :=
  fun c => .inr ⟨c.offset, damage, rfl, Std.Refl.refl _⟩

theorem blames_take (n : Nat) : Blames (take n) place := by
  intro c
  rw [take]
  split_ifs
  · exact .inl ⟨_, _, rfl, rfl⟩
  · exact .inr ⟨_, _, rfl, Std.Refl.refl _⟩

theorem blames_number (n : Nat) : Blames (number n) place := (blames_take n).bind fun _ => .pure _

theorem blames_byte : Blames byte place := (blames_number 1).bind fun _ => .pure _

theorem blames_word32 : Blames word32 place := (blames_number 4).bind fun _ => .pure _

theorem blames_word64 : Blames word64 place := (blames_number 8).bind fun _ => .pure _

theorem blames_key : Blames key place := blames_word64.bind fun _ => blames_word32.bind fun _ => .pure _

end Leaves

/-- What cannot be read is damaged. -/
theorem Blames.of_read {r : Reader α} (h : Blames r place) {start : Nat} {bytes : List UInt8}
    (hread : ∀ a, r.read start bytes ≠ .ok a) :
    ∃ offset damage, r.read start bytes = .error (.corrupt offset damage) ∧ place start offset := by
  rcases h ⟨start, bytes, 0⟩ with ⟨a, c, ha, -⟩ | ⟨offset, damage, hfail, hplace⟩
  · refine absurd ?_ (hread a)
    rw [read, ha]
    rfl
  · refine ⟨offset, damage, ?_, hplace⟩
    rw [read, hfail]
    rfl

end Reader

end Liveness
