import Liveness.Proofs.Store.Recovery

/-!
# Which checkpoints are refused

A recovery reads the whole checkpoint and compares it with the log before it changes anything.
So a checkpoint that is missing or damaged, however it is damaged, leaves the store as it was
(`Store.recover_of_refusal`). What counts as damaged is said without the reader: a file is taken
if it starts with the bytes of a checkpoint whose numbers fit their fields, whose records lie
in the checkpointed log, and whose log is no longer than the one there is
(`Snapshot.decode_eq_ok_iff`). The mark of an expanded state may be any byte but zero, and what
follows the checkpoint in the file is passed over.
-/

namespace Liveness

namespace Reader

variable {α : Type}

/-- Values are taken one after the other, each from bytes of its own. -/
theorem takes_many_of_forall₂ {r : Reader α} {R : α → List UInt8 → Prop} {as : List α} {parts : List (List UInt8)}
    (hparts : List.Forall₂ R as parts) (h : ∀ a ∈ as, ∀ bs, R a bs → Takes r bs a) :
    Takes (many r as.length) parts.flatten as := by
  induction hparts with
  | nil => exact Takes.pure []
  | cons ha _ ih => exact (h _ (by simp) _ ha).bind ((ih fun b hb => h b (by simp [hb])).map _)

/-- The bytes taken for a row of values are in parts, one for each value. -/
theorem exists_parts_of_many {r : Reader α} {R : α → List UInt8 → Prop}
    (h : ∀ c a c', r c = .ok (a, c') → ∃ bs, R a bs ∧ c.rest = bs ++ c'.rest) {n : Nat} {c c' : Cursor} {as : List α}
    (has : many r n c = .ok (as, c')) : ∃ parts, List.Forall₂ R as parts ∧ c.rest = parts.flatten ++ c'.rest := by
  induction n generalizing c as with
  | zero =>
    cases has
    exact ⟨[], .nil, rfl⟩
  | succ n ih =>
    obtain ⟨a, c₁, ha, has⟩ := bind_eq_ok.mp has
    obtain ⟨as, c₂, has, hcons⟩ := bind_eq_ok.mp has
    cases hcons
    obtain ⟨bs, hbs, hrest⟩ := h _ _ _ ha
    obtain ⟨parts, hparts, hrest'⟩ := ih has
    refine ⟨bs :: parts, .cons hbs hparts, ?_⟩
    rw [hrest, hrest', List.flatten_cons, List.append_assoc]

end Reader

namespace Snapshot

variable {c : Snapshot} {len : Nat} {bytes : List UInt8}

/-! ### How the readers fail -/

/-- The damage of a checkpoint may be named anywhere. -/
def Anywhere (_ _ : Nat) : Prop := True

instance : Std.Refl Anywhere := ⟨fun _ => trivial⟩

theorem blames_readSlot (len : Nat) : Reader.Blames (readSlot len) Anywhere := by
  refine Reader.blames_byte.bind fun tag => ?_
  split_ifs
  · exact .pure _
  · exact Reader.blames_key.bind fun k => .pure _
  · refine (Reader.blames_number 8).bind fun offset => ?_
    split_ifs
    · exact .throw (fun _ => trivial) _
    · exact .pure _
  · exact Reader.blames_fail _

theorem blames_readRow (len : Nat) : Reader.Blames (readRow len) Anywhere := by
  have hpoint : Reader.Blames (readPoint len) Anywhere :=
    Reader.blames_word32.bind fun point => (blames_readSlot len).bind fun slot => .pure _
  exact Reader.blames_word64.bind fun fp => Reader.blames_byte.bind fun done => (Reader.blames_number 4).bind fun count =>
    (hpoint.many count).bind fun slots => .pure _

theorem blames_readHead : Reader.Blames readHead Anywhere := by
  refine (Reader.blames_take 4).bind fun found => ?_
  split_ifs
  · exact Reader.blames_fail _
  · refine Reader.blames_word32.bind fun found => ?_
    split_ifs
    · exact .throw (fun _ => trivial) _
    · exact (Reader.blames_number 8).bind fun logLen => Reader.blames_word64.bind fun size =>
        Reader.blames_word64.bind fun baseline => (Reader.blames_number 4).bind fun count =>
        (Reader.blames_key.many count).bind fun roots => .pure _

theorem blames_reader : Reader.Blames reader Anywhere :=
  blames_readHead.bind fun head => (Reader.blames_number 8).bind fun count =>
    ((blames_readRow head.logLen).many count).bind fun _ => .pure _

/-! ### The bytes of a checkpoint -/

theorem inverts_readSlot (len : Nat) : Reader.Inverts (readSlot len) encodeSlot := by
  intro c slot c' h
  obtain ⟨tag, c₁, htag, h⟩ := Reader.bind_eq_ok.mp h
  have hrest := Reader.inverts_byte _ _ _ htag
  split_ifs at h with hnone hsome hwritten
  · cases h
    rw [hrest, hnone]
    rfl
  · obtain ⟨k, c₂, hk, h⟩ := Reader.bind_eq_ok.mp h
    cases h
    rw [hrest, hsome, Reader.inverts_key _ _ _ hk]
    rfl
  · obtain ⟨offset, c₂, hoffset, h⟩ := Reader.bind_eq_ok.mp h
    split_ifs at h
    · cases h
    · cases h
      rw [hrest, hwritten, Reader.inverts_number 8 _ _ _ hoffset]
      rfl
  · cases h

theorem inverts_readPoint (len : Nat) : Reader.Inverts (readPoint len) encodePoint := by
  intro c e c' h
  obtain ⟨point, c₁, hpoint, h⟩ := Reader.bind_eq_ok.mp h
  obtain ⟨slot, c₂, hslot, h⟩ := Reader.bind_eq_ok.mp h
  cases h
  rw [Reader.inverts_word32 _ _ _ hpoint, inverts_readSlot len _ _ _ hslot, ← List.append_assoc]
  rfl

theorem exists_isRow_of_readRow {k k' : Cursor} {e : Fingerprint × Row} (h : readRow len k = .ok (e, k')) :
    e.2.slots.length < 2 ^ 32 ∧ ∃ bs, IsRow e bs ∧ k.rest = bs ++ k'.rest := by
  obtain ⟨fp, k₁, hfp, h⟩ := Reader.bind_eq_ok.mp h
  obtain ⟨mark, k₂, hmark, h⟩ := Reader.bind_eq_ok.mp h
  obtain ⟨count, k₃, hcount, h⟩ := Reader.bind_eq_ok.mp h
  obtain ⟨slots, k₄, hslots, h⟩ := Reader.bind_eq_ok.mp h
  cases h
  obtain rfl := Reader.gives_length_many _ _ _ _ _ hslots
  obtain ⟨hrest, hlt⟩ := Reader.number_eq_ok hcount
  refine ⟨hlt, _, ⟨mark, rfl, rfl⟩, ?_⟩
  rw [Reader.inverts_word64 _ _ _ hfp, Reader.inverts_byte _ _ _ hmark, hrest,
    (inverts_readPoint len).many _ _ _ _ hslots]
  simp only [List.append_assoc]

theorem readHead_eq_ok {k k' : Cursor} {head : Snapshot} (h : readHead k = .ok (head, k')) :
    head.logLen < 2 ^ 64 ∧ head.roots.length < 2 ^ 32 ∧ k.rest = head.encodeHead ++ k'.rest := by
  obtain ⟨found, k₁, hmagic, h⟩ := Reader.bind_eq_ok.mp h
  split_ifs at h with hne
  · cases h
  obtain rfl := not_not.mp hne
  obtain ⟨found, k₂, hversion, h⟩ := Reader.bind_eq_ok.mp h
  split_ifs at h with hne
  · cases h
  obtain rfl := not_not.mp hne
  obtain ⟨logLen, k₃, hlen, h⟩ := Reader.bind_eq_ok.mp h
  obtain ⟨size, k₄, hsize, h⟩ := Reader.bind_eq_ok.mp h
  obtain ⟨baseline, k₅, hbaseline, h⟩ := Reader.bind_eq_ok.mp h
  obtain ⟨count, k₆, hcount, h⟩ := Reader.bind_eq_ok.mp h
  obtain ⟨roots, k₇, hroots, h⟩ := Reader.bind_eq_ok.mp h
  cases h
  obtain rfl := Reader.gives_length_many _ _ _ _ _ hroots
  obtain ⟨hlen, hlenLt⟩ := Reader.number_eq_ok hlen
  obtain ⟨hcount, hcountLt⟩ := Reader.number_eq_ok hcount
  refine ⟨hlenLt, hcountLt, ?_⟩
  rw [(Reader.take_eq_ok hmagic).1, Reader.inverts_word32 _ _ _ hversion, hlen, Reader.inverts_word64 _ _ _ hsize,
    Reader.inverts_word64 _ _ _ hbaseline, hcount, Reader.inverts_key.many _ _ _ _ hroots]
  simp only [encodeHead, List.append_assoc]

/-- The bytes start with the checkpoint. -/
structure IsImage (c : Snapshot) (bytes : List UInt8) : Prop where
  fits : c.Fits
  parts : ∃ rows, List.Forall₂ IsRow c.rows rows ∧ c.encodeHead ++ toBytes 8 c.rows.length ++ rows.flatten <+: bytes

theorem IsImage.decode_eq (h : c.IsImage bytes) : decode bytes = .ok c := by
  obtain ⟨rows, hrows, rest, rfl⟩ := h.parts
  have hcount : Reader.Takes (Reader.number 8) (toBytes 8 c.rows.length) c.rows.length :=
    Reader.takes_number h.fits.rows
  have htakes : Reader.Takes (Reader.many (readRow c.logLen) c.rows.length) rows.flatten c.rows :=
    Reader.takes_many_of_forall₂ hrows fun e he _ hbs =>
      takes_readRow h.fits.logLen (h.fits.below e he) (h.fits.slots e he) hbs
  have hread : ∃ k, reader ⟨0, c.encodeHead ++ toBytes 8 c.rows.length ++ rows.flatten ++ rest, 0⟩ = .ok (c, k) := by
    simp only [List.append_assoc]
    rw [reader, (takes_readHead h.fits).bind_apply, hcount.bind_apply, htakes.bind_apply]
    exact ⟨_, rfl⟩
  obtain ⟨k, hread⟩ := hread
  rw [decode, Reader.read, hread]
  rfl

theorem isImage_of_decode (h : decode bytes = .ok c) : c.IsImage bytes := by
  have hbelow := below_of_decode h
  obtain ⟨k, h⟩ := Reader.exists_of_read h
  obtain ⟨head, k₁, hhead, h⟩ := Reader.bind_eq_ok.mp h
  obtain ⟨count, k₂, hcount, h⟩ := Reader.bind_eq_ok.mp h
  obtain ⟨rows, k₃, hrows, h⟩ := Reader.bind_eq_ok.mp h
  cases h
  obtain rfl := Reader.gives_length_many _ _ _ _ _ hrows
  obtain ⟨hcount, hmany⟩ := Reader.number_eq_ok hcount
  obtain ⟨hlen, hroots, hrest⟩ := readHead_eq_ok hhead
  have hslots : Reader.Gives (readRow head.logLen) fun e => e.2.slots.length < 2 ^ 32 :=
    fun _ _ _ he => (exists_isRow_of_readRow he).1
  obtain ⟨parts, hparts, hflat⟩ := Reader.exists_parts_of_many (fun _ _ _ he => (exists_isRow_of_readRow he).2) hrows
  refine ⟨⟨hlen, hroots, hmany, hslots.many _ _ _ _ hrows, hbelow⟩, parts, hparts, k.rest, ?_⟩
  change head.encodeHead ++ _ ++ _ ++ _ = _
  rw [show bytes = _ from hrest, hcount, hflat]
  simp only [List.append_assoc]

/-- **A file is read as a checkpoint exactly if it starts with the bytes of one.** -/
theorem decode_eq_ok_iff : decode bytes = .ok c ↔ c.IsImage bytes := ⟨isImage_of_decode, IsImage.decode_eq⟩

/-- A file starts with one checkpoint only. -/
theorem IsImage.unique {c' : Snapshot} (h : c.IsImage bytes) (h' : c'.IsImage bytes) : c = c' :=
  Except.ok.inj (h.decode_eq.symm.trans h'.decode_eq)

end Snapshot

namespace Store

/-! ### What a recovery does -/

/-- The file holds a checkpoint, and the log of the store is long enough for it. -/
def Offers (s : Store) (bytes : Bytes) (c : Snapshot) : Prop := c.IsImage bytes.toList ∧ c.logLen ≤ s.log.len

variable {s : Store} {bytes : Bytes}

theorem loadCheckpoint_of_file (h : s.checkpoint = .file bytes) :
    (∃ c, s.loadCheckpoint = .ok c ∧ s.Offers bytes c) ∨
      (∃ offset damage, s.loadCheckpoint = .error (.corrupt offset damage)) ∧ ∀ c, ¬ s.Offers bytes c := by
  rw [loadCheckpoint, h]
  change (∃ c, (Snapshot.decode bytes.toList >>= _) = _ ∧ _) ∨ (∃ offset damage, (Snapshot.decode bytes.toList >>= _) = _) ∧ _
  cases hdecode : Snapshot.decode bytes.toList with
  | ok c =>
    have himage := Snapshot.decode_eq_ok_iff.mp hdecode
    by_cases hlen : s.log.len < c.logLen
    · refine .inr ⟨⟨_, _, if_pos hlen⟩, fun c' hc' => ?_⟩
      have hle := hc'.2
      rw [← himage.unique hc'.1] at hle
      omega
    · exact .inl ⟨c, if_neg hlen, himage, by omega⟩
  | error f =>
    have hnone : ∀ c, Snapshot.decode bytes.toList ≠ .ok c := fun c hc => by rw [hc] at hdecode; cases hdecode
    obtain ⟨offset, damage, hfail, -⟩ := Snapshot.blames_reader.of_read hnone
    obtain rfl := Except.error.inj (hdecode.symm.trans hfail)
    exact .inr ⟨⟨offset, damage, rfl⟩, fun c hc => hnone c (Snapshot.decode_eq_ok_iff.mpr hc.1)⟩

/-- All that a recovery can do. -/
theorem recover_cases (s : Store) :
    (s.checkpoint = .absent ∧ recover s = (.error (.error (.missingCheckpoint s.checkpointPath)), s)) ∨
    (s.checkpoint = .folder ∧ recover s = (.error (.error (.file .isFolder)), s)) ∨
    ∃ bytes, s.checkpoint = .file bytes ∧ ((∃ c, s.Offers bytes c ∧ recover s = (.ok (), s.restore c)) ∨
      (∀ c, ¬ s.Offers bytes c) ∧ ∃ offset damage, recover s = (.error (.corrupt offset damage), s)) := by
  cases h : s.checkpoint with
  | absent =>
    refine .inl ⟨rfl, ?_⟩
    rw [recover_apply, loadCheckpoint, h]
  | folder =>
    refine .inr (.inl ⟨rfl, ?_⟩)
    rw [recover_apply, loadCheckpoint, h]
  | file bytes =>
    refine .inr (.inr ⟨bytes, rfl, ?_⟩)
    rw [recover_apply]
    rcases loadCheckpoint_of_file h with ⟨c, hload, hc⟩ | ⟨⟨offset, damage, hload⟩, hnone⟩
    · exact .inl ⟨c, hc, by rw [hload]⟩
    · exact .inr ⟨hnone, offset, damage, by rw [hload]⟩

/-- **A recovery that fails leaves the store as it was**, and it fails with an error, not with a
defect. A checkpoint is missing if there is no file of its name, and damaged if the file does not
start with a checkpoint that the log is long enough for. Else the store is restored from it. -/
theorem recover_of_refusal (s : Store) :
    (∀ f, (recover s).1 = .error f → (recover s).2 = s ∧ ∃ e, f = .error e) ∧
    ((∃ path, (recover s).1 = .error (.error (.missingCheckpoint path))) ↔ s.checkpoint = .absent) ∧
    ((∃ offset damage, (recover s).1 = .error (.corrupt offset damage)) ↔
      ∃ bytes, s.checkpoint = .file bytes ∧ ∀ c, ¬ s.Offers bytes c) ∧
    ((recover s).1 = .ok () ↔
      ∃ bytes c, s.checkpoint = .file bytes ∧ s.Offers bytes c ∧ (recover s).2 = s.restore c) := by
  rcases recover_cases s with ⟨h, hrun⟩ | ⟨h, hrun⟩ | ⟨bytes, h, ⟨c, hc, hrun⟩ | ⟨hnone, offset, damage, hrun⟩⟩
  · simp [h, hrun, Fault.corrupt]
  · simp [h, hrun, Fault.corrupt]
  · have hsome : ∃ c', s.Offers bytes c' ∧ s.restore c = s.restore c' := ⟨c, hc, rfl⟩
    have hall : ¬ ∀ c, ¬ s.Offers bytes c := fun hnone => hnone c hc
    simpa [h, hrun, hall] using hsome
  · simp [h, hrun, Fault.corrupt, hnone]

/-- The graph of one root, with a checkpoint that lost its last bytes. -/
def torn : Store := { rooted with checkpoint := .file ((rooted.snapshot default).encode.take 80).toArray }

/-- A checkpoint that was cut in the middle of its rows. -/
theorem recover_of_refusal_torn : ∃ damage, (recover torn).1 = .error (.corrupt 0 damage) ∧ (recover torn).2 = torn := by
  have hrun : (recover torn).1 = .error (.corrupt 0 (.truncated 8 74)) := by decide +kernel
  exact ⟨_, hrun, ((recover_of_refusal torn).1 _ hrun).1⟩

end Store

end Liveness
