import Liveness.Builder.Next
import Liveness.Proofs.Lasso
import Liveness.Proofs.Store.Path

/-!
# The rules of building

Each part of the building of a graph has one rule here: what must hold for something to hold
after it. The rules follow the text of the parts, and name the cases in which a part does
something else. What all calls keep, whether it is a law of the graph, the absence of faults or
what is on the list of late expansions, is proved with the rules, and no proof of it opens a
part again.
-/

namespace Liveness

namespace Builder

variable {α σ : Type} {b : Builder} {E : Fault → Builder → Prop}

theorem meets_asks (f : Store → α) : (asks f).Meets b (fun a b' => a = f b.store ∧ b' = b) E := ⟨rfl, rfl⟩

theorem meets_onStore (f : Store → Store) : (onStore f).Meets b (fun _ b' => b' = { b with store := f b.store }) E :=
  rfl

theorem meets_sure {r : Except Defect α} (hE : ∀ d, r = .error d → E (.defect d) b) :
    (sure r).Meets b (fun a b' => r = .ok a ∧ b' = b) E := by
  cases r with
  | ok a => exact ⟨rfl, rfl⟩
  | error d => exact hE d rfl

theorem meets_ask {f : Store → Outcome α} (hE : ∀ e, f b.store = .error e → E e b) :
    (ask f).Meets b (fun a b' => f b.store = .ok a ∧ b' = b) E := by
  refine Change.Meets.bind (Q := fun a b' => a = b ∧ b' = b) ⟨rfl, rfl⟩ ?_
  rintro a b' ⟨rfl, rfl⟩
  exact Change.Meets.lift (fun x hx => ⟨hx, rfl⟩) hE

theorem meets_inStore {c : Change Store α} {Q : α → Builder → Prop}
    (h : c.Meets b.store (fun a s => Q a { b with store := s }) (fun f s => E f { b with store := s })) :
    (inStore c).Meets b Q E := by
  unfold Change.Meets at h ⊢
  rw [inStore]
  rcases hrun : c b.store with ⟨f | a, s⟩
  · rw [hrun] at h
    exact h
  · rw [hrun] at h
    exact h

/-- Of a graph that is drawn nothing changes but the drawings. There is no drawing if the graph
cannot be read, or if a folder has the name. -/
theorem meets_snapshot {p : Property σ} {Q : Unit → Builder → Prop}
    (hdrawn : ∀ d next, d.taken = b.store.drawings.taken → (b.nextDrawing = none → next = none) →
      Q () { b with store := { b.store with drawings := d }, nextDrawing := next })
    (hread : ∀ title f next, b.store.draw p.tableau title = .error f → E f { b with nextDrawing := next })
    (htaken : ∀ number, b.nextDrawing = some number →
      Store.drawingName b.store.index number ∈ b.store.drawings.taken →
      ∀ next, E (.error (.file .isFolder)) { b with nextDrawing := next }) : (snapshot p).Meets b Q E := by
  refine (Change.Meets.get (Q := fun a b' => a = b ∧ b' = b) ⟨rfl, rfl⟩).bind ?_
  rintro _ b ⟨rfl, rfl⟩
  cases hnext : b.nextDrawing with
  | none => exact hdrawn b.store.drawings b.nextDrawing rfl id
  | some number =>
    refine (Change.Meets.modify (Q := fun _ b' => b' = { b with nextDrawing := some (number + 1) }) rfl).bind ?_
    rintro _ b' rfl
    refine meets_inStore ((Change.Meets.get (Q := fun a s => a = b.store ∧ s = b.store) ⟨rfl, rfl⟩).bind ?_)
    rintro _ s ⟨rfl, rfl⟩
    refine (Change.Meets.lift (Q := fun _ s => s = b.store) (fun _ _ => rfl) fun f hf => ?_).bind ?_
    · exact hread _ f _ hf
    rintro text s rfl
    split_ifs with hname
    · exact htaken number hnext (List.contains_iff_mem.mp hname) _
    · exact hdrawn _ _ rfl fun h => by rw [hnext] at h; cases h

/-! ### One node -/

/-- A link to a known node that the node has a step to does nothing. Any other adds a step and
records the node that it leads to. -/
theorem meets_link {n : Node} {target origin : Key} {width : Nat} {row : Bits} {offset hint : Except Defect Nat}
    {Q : Node × Bool → Builder → Prop}
    (hold : b.store.isUnseen target = false → target ∈ n.targets → Q (n, false) b)
    (hnew : b.store.isUnseen target = true ∨ target ∉ n.targets → ∀ i j n', offset = .ok i → hint = .ok j →
      n.addStep target width row i j = (.ok (), n') →
      Q (n', b.store.isUnseen target) { b with store := b.store.record target origin })
    (hdefect : b.store.isUnseen target = true ∨ target ∉ n.targets → ∀ d, (offset = .error d ∨ hint = .error d ∨
      ∃ i j n', offset = .ok i ∧ hint = .ok j ∧ n.addStep target width row i j = (.error d, n')) → E (.defect d) b) :
    (link n target width row offset hint origin).Meets b Q E := by
  refine (meets_asks _).bind ?_
  rintro unseen b ⟨rfl, rfl⟩
  by_cases hlink : (b.store.isUnseen target || !n.hasTarget target) = true
  · rw [if_pos hlink]
    rw [Bool.or_eq_true, Bool.not_eq_true', ← Bool.not_eq_true, Node.hasTarget_iff] at hlink
    refine (meets_sure fun d hd => hdefect hlink d (.inl hd)).bind ?_
    rintro i b ⟨hi, rfl⟩
    refine (meets_sure fun d hd => hdefect hlink d (.inr (.inl hd))).bind ?_
    rintro j b ⟨hj, rfl⟩
    rw [addStep]
    rcases hadd : n.addStep target width row i j with ⟨d | u, n'⟩
    · exact hdefect hlink d (.inr (.inr ⟨i, j, n', hi, hj, hadd⟩))
    · have hQ := hnew hlink i j n' hi hj hadd
      cases hunseen : b.store.isUnseen target with
      | true =>
        rw [hunseen] at hQ
        exact hQ
      | false =>
        rw [hunseen, Store.record_of_seen hunseen] at hQ
        exact hQ
  · rw [if_neg hlink]
    rw [Bool.or_eq_true, not_or, Bool.not_eq_true, Bool.not_eq_true', Bool.not_eq_false, Node.hasTarget_iff] at hlink
    exact hold hlink.1 hlink.2

/-- A node is written if it has got steps, or has none. Otherwise there is a warning, and a
defect unless states may be revisited. -/
theorem meets_keep {p : Property σ} {n : Node} {before : Nat} {revisits : Bool} {Q : Unit → Builder → Prop}
    (hwrite : (before = 0 ∧ n.degree = 0) ∨ before < n.degree →
      (onStore (fun s => s.addNode n.trim) >>= fun _ => snapshot p).Meets b Q E)
    (hagain : n.degree ≤ before → 0 < before → ∀ warnings,
      (revisits = true → Q () { b with warnings := warnings }) ∧
        (revisits = false → E (.defect (.nonMonotonic n.key)) { b with warnings := warnings })) :
    (keep p n before revisits).Meets b Q E := by
  rw [keep]
  by_cases hgrown : (before = 0 ∧ n.degree = 0) ∨ before < n.degree
  · rw [if_pos hgrown]
    exact hwrite hgrown
  · rw [if_neg hgrown]
    obtain ⟨hvisits, hvain⟩ := hagain (by omega) (by omega) (b.warnings ++ [.expandedAgain p.name n.key n.degree])
    cases revisits with
    | true => exact hvisits rfl
    | false => exact hvain rfl

/-! ### Nodes that turned up late -/

variable {p : Property σ} {m : Model σ} {t : Tableau σ} {e : Expansion σ} {work : List (Expansion σ)}

/-- The steps that stay in the state, while `P k` holds with `k` points left. The row of them ends
with the first step to an accepting point. -/
theorem meets_stutter {row : Bits} {total : Nat} {points : List (UInt32 × Nat)}
    {P : Nat → Growth σ → Builder → Prop} {Q : Growth σ × Bool → Builder → Prop}
    (hpoint : ∀ x ∈ points, ∀ k g b d, P (k + 1) g b → t.node x.1 = .error d → E (.defect d) b)
    (hskip : ∀ k g b, P (k + 1) g b → P k g b)
    (hlink : ∀ x ∈ points, ∀ tnode, t.node x.1 = .ok tnode → tnode.allows e.state = true → ∀ k n work b,
      P (k + 1) (n, work) b →
        (link n ⟨e.key.fp, x.1⟩ p.width row (.ok 0) (subWords total x.2) e.key).Meets b
          (fun r b' =>
            (tnode.accepting = true →
              Q ((r.1, if r.2 then ⟨e.state, ⟨e.key.fp, x.1⟩⟩ :: work else work), true) b') ∧
            (tnode.accepting = false → P k (r.1, if r.2 then ⟨e.state, ⟨e.key.fp, x.1⟩⟩ :: work else work) b')) E)
    (hend : ∀ g b, P 0 g b → Q (g, false) b) :
    ∀ g b, P points.length g b → (stutter p t e row total points g).Meets b Q E := by
  induction points with
  | nil => exact fun g b h => hend g b h
  | cons x points ih =>
    rintro ⟨n, work⟩ b h
    replace ih := ih (fun y hy => hpoint y (List.mem_cons_of_mem _ hy)) fun y hy => hlink y (List.mem_cons_of_mem _ hy)
    rw [stutter]
    refine (meets_sure fun d hd => hpoint x List.mem_cons_self _ _ _ d h hd).bind ?_
    rintro tnode b ⟨htnode, rfl⟩
    by_cases hallows : tnode.allows e.state = true
    · rw [if_pos hallows]
      refine (hlink x List.mem_cons_self tnode htnode hallows _ n work b h).bind ?_
      rintro ⟨n', new⟩ b' ⟨haccepting, hgo⟩
      cases hacc : tnode.accepting with
      | true => exact haccepting hacc
      | false => exact ih _ b' (hgo hacc)
    · rw [if_neg hallows]
      exact ih _ b (hskip _ _ _ h)

variable [ModelState σ]

theorem meets_lateStep {s : σ} {row : Bits} {done : Bool} {room : Except Defect Nat} {g : Growth σ} {point : UInt32}
    {Q : Growth σ → Builder → Prop}
    (hpoint : ∀ d, t.node point = .error d → E (.defect d) b)
    (hlink : ∀ tnode, t.node point = .ok tnode → tnode.allows s = true →
      (link g.1 ⟨fingerprint s, point⟩ p.width row (.ok 0) room e.key).Meets b
        (fun r b' => Q (r.1, if r.2 && done then ⟨s, ⟨fingerprint s, point⟩⟩ :: g.2 else g.2) b') E)
    (hskip : ∀ tnode, t.node point = .ok tnode → tnode.allows s = false → Q g b) :
    (lateStep p t e s row done room g point).Meets b Q E := by
  rw [lateStep]
  refine (meets_sure hpoint).bind ?_
  rintro tnode b ⟨htnode, rfl⟩
  cases hallows : tnode.allows s with
  | true => exact (hlink tnode htnode hallows).bind fun r b' hr => hr
  | false => exact hskip tnode htnode hallows

theorem meets_lateSteps {points : List UInt32} {total i : Nat} {s : σ} {g : Growth σ} {Q : Growth σ → Builder → Prop}
    (hloop : (points.zipIdx.foldlM (fun g x => lateStep p t e s (p.actionBits e.state s)
      (b.store.isDone (fingerprint s)) (subWords total (i * points.length + x.2)) g x.1) g).Meets b Q E) :
    (lateSteps p t e points total g (s, i)).Meets b Q E := by
  rw [lateSteps]
  refine (meets_asks _).bind ?_
  rintro done b ⟨rfl, rfl⟩
  exact hloop

/-- A node is read, gets the steps that stay in its state and then, unless one of them shows a
violation, those to the successors. It is written if it has got any. -/
theorem meets_expandOne {Q : Except Key (List (Expansion σ)) → Builder → Prop}
    (hpoint : ∀ d, t.node e.key.point = .error d → E (.defect d) b)
    (hread : ∀ f, b.store.node e.key = .error f → E f b)
    (hrest : ∀ tnode n, t.node e.key.point = .ok tnode → b.store.node e.key = .ok n →
      (stutter p t e (p.actionBits e.state e.state) tnode.successors.length tnode.successors.zipIdx
          (n.setState (p.stateBits e.state), work)).Meets b
        (fun r b' =>
          (r.2 = true →
            (n.degree < r.1.1.degree → Q (.error e.key) { b' with store := b'.store.addNode r.1.1.trim }) ∧
            (r.1.1.degree ≤ n.degree → Q (.error e.key) b')) ∧
          (r.2 = false →
            ((m.successors e.state).zipIdx.foldlM (lateSteps p t e tnode.successors
              ((m.successors e.state).length * tnode.successors.length)) r.1).Meets b'
              (fun g b'' =>
                (n.degree < g.1.degree →
                  (onStore (fun s => s.addNode g.1.trim) >>= fun _ => snapshot p).Meets b''
                    (fun _ b₃ => Q (.ok g.2) b₃) E) ∧
                (g.1.degree ≤ n.degree → Q (.ok g.2) b'')) E)) E) :
    (expandOne p m t e work).Meets b Q E := by
  rw [expandOne]
  refine (meets_sure hpoint).bind ?_
  rintro tnode b ⟨htnode, rfl⟩
  refine (meets_ask hread).bind ?_
  rintro n b ⟨hn, rfl⟩
  refine (hrest tnode n htnode hn).bind ?_
  rintro ⟨g, violated⟩ b' ⟨hviolated, hloop⟩
  cases violated with
  | true =>
    obtain ⟨hwrite, hsame⟩ := hviolated rfl
    by_cases hgrown : n.degree < g.1.degree
    · simp only [hgrown, if_true]
      exact hwrite hgrown
    · simp only [hgrown, if_true, if_false]
      exact hsame (Nat.le_of_not_lt hgrown)
  | false =>
    refine (hloop rfl).bind ?_
    rintro g b'' ⟨hwrite, hsame⟩
    by_cases hgrown : n.degree < g.1.degree
    · simp only [hgrown, if_true]
      rw [← bind_assoc]
      exact (hwrite hgrown).bind fun _ b₃ h => h
    · simp only [hgrown, if_false]
      exact hsame (Nat.le_of_not_lt hgrown)

/-- Expansion after expansion, while `I` holds of the fuel and the list. -/
theorem meets_expandAll {I : Nat → List (Expansion σ) → Builder → Prop} {Q : Option Key → Builder → Prop}
    (hnil : ∀ fuel b, I fuel [] b → Q none b) (hout : ∀ e work b, I 0 (e :: work) b → Q none b)
    (hone : ∀ fuel e work b, I (fuel + 1) (e :: work) b → (expandOne p m t e work).Meets b
      (fun r b' => (∀ k, r = .error k → Q (some k) b') ∧ ∀ work', r = .ok work' → I fuel work' b') E) (fuel : Nat) :
    ∀ work b, I fuel work b → (expandAll p m t fuel work).Meets b Q E := by
  induction fuel with
  | zero =>
    intro work b h
    cases work with
    | nil => exact hnil 0 b h
    | cons e work => exact hout e work b h
  | succ fuel ih =>
    intro work b h
    cases work with
    | nil => exact hnil _ b h
    | cons e work =>
      rw [expandAll]
      refine (hone fuel e work b h).bind ?_
      rintro (k | work') b' ⟨hviolated, hgo⟩
      · exact hviolated k rfl
      · exact ih work' b' (hgo work' rfl)

theorem meets_expandLate {Q : Option Key → Builder → Prop}
    (h : (expandAll p m t (b.store.table.size * t.size) work).Meets b Q E) : (expandLate p m t work).Meets b Q E := by
  rw [expandLate]
  refine (meets_asks _).bind ?_
  rintro states b ⟨rfl, rfl⟩
  exact h

/-! ### Nodes of the state that is expanded -/

variable {batch : Batch σ} {fp : Fingerprint} {revisits : Bool}

theorem meets_nextStep {used i : Nat} {s : σ} {done : Bool} {g : Growth σ} {point : UInt32}
    {Q : Growth σ → Builder → Prop}
    (hlink : batch.consistent.get (point.toNat * batch.successors.length + i) = true →
      (link g.1 ⟨fingerprint s, point⟩ batch.checks.width batch.checks.actions (mulWords i batch.checks.width)
        (.ok (batch.room - (used + i))) g.1.key).Meets b
        (fun r b' => Q (r.1, if r.2 && done then ⟨s, ⟨fingerprint s, point⟩⟩ :: g.2 else g.2) b') E)
    (hskip : batch.consistent.get (point.toNat * batch.successors.length + i) = false → Q g b) :
    (nextStep batch used s i done g point).Meets b Q E := by
  rw [nextStep]
  cases hconsistent : batch.consistent.get (point.toNat * batch.successors.length + i) with
  | true => exact (hlink hconsistent).bind fun r b' hr => hr
  | false => exact hskip hconsistent

theorem meets_nextSteps {used : Nat} {points : List UInt32} {x : σ × Nat} {g : Growth σ}
    {Q : Growth σ → Builder → Prop}
    (hloop : (points.foldlM (nextStep batch used x.1 x.2 (b.store.isDone (fingerprint x.1))) g).Meets b Q E) :
    (nextSteps batch used points g x).Meets b Q E := by
  rw [nextSteps]
  refine (meets_asks _).bind ?_
  rintro done b ⟨rfl, rfl⟩
  exact hloop

/-- A node is read, gets the steps to the successors, and is kept. -/
theorem meets_expandPoint {x : UInt32 × Nat} {Q : List (Expansion σ) → Builder → Prop}
    (hpoint : ∀ d, t.node x.1 = .error d → E (.defect d) b)
    (hread : ∀ f, b.store.node ⟨fp, x.1⟩ = .error f → E f b)
    (hrest : ∀ tnode n, t.node x.1 = .ok tnode → b.store.node ⟨fp, x.1⟩ = .ok n →
      (batch.successors.zipIdx.foldlM (nextSteps batch (x.2 * batch.successors.length) tnode.successors)
          (n.setState batch.checks.state, work)).Meets b
        (fun g b' => (keep p g.1 n.degree revisits).Meets b' (fun _ b'' => Q g.2 b'') E) E) :
    (expandPoint p t batch fp revisits work x).Meets b Q E := by
  rw [expandPoint]
  refine (meets_sure hpoint).bind ?_
  rintro tnode b ⟨htnode, rfl⟩
  refine (meets_ask hread).bind ?_
  rintro n b ⟨hn, rfl⟩
  refine (hrest tnode n htnode hn).bind ?_
  intro g b' hkeep
  exact hkeep.bind fun _ b'' h => h

/-! ### Whole calls -/

variable {successors : List σ} {checks : StepChecks}

/-- The nodes of a state are expanded: the nodes that turned up late. -/
def expandState (p : Property σ) (t : Tableau σ) (fp : Fingerprint) (successors : List σ) (checks : StepChecks)
    (revisits : Bool) : Build (List (Expansion σ)) := do
  let consistent ← sure (consistency t successors)
  onStore fun s => s.setDone fp
  let points ← asks fun s => s.pointsAt fp
  let batch := ⟨successors, checks, consistent, points.length * successors.length⟩
  points.zipIdx.foldlM (expandPoint p t batch fp revisits) []

/-- What is answered when the late expansions have ended: the way to the node that showed a
violation, and to stay there. -/
def answer (violation : Option Key) : Build (Option Lasso) :=
  violation.elim (return none) fun key => do
    let path ← ask fun s => s.pathTo key
    path.getLast?.elim (return none) fun last =>
      some <$> Outcome.lift (Fault.ofReconstruction (Lasso.ofCycle path [last, last]))

/-- A call expands the nodes of the state, then those that turned up late, and answers. -/
theorem addProduct_eq (p : Property σ) (m : Model σ) (t : Tableau σ) (fp : Fingerprint) (successors : List σ)
    (checks : StepChecks) (revisits : Bool) :
    addProduct p m t fp successors checks revisits =
      expandState p t fp successors checks revisits >>= fun work => expandLate p m t work >>= answer := by
  rw [addProduct, expandState]
  simp only [bind_assoc]
  refine bind_congr fun consistent => bind_congr fun _ => bind_congr fun points => bind_congr fun work => ?_
  refine bind_congr fun violation => ?_
  cases violation with
  | none => rfl
  | some key =>
    refine bind_congr fun path => ?_
    cases path.getLast? <;> rfl

theorem meets_expandState {Q : List (Expansion σ) → Builder → Prop}
    (hbits : ∀ d, consistency t successors = .error d → E (.defect d) b)
    (hpoints : ∀ consistent, consistency t successors = .ok consistent →
      (((b.store.setDone fp).pointsAt fp).zipIdx.foldlM (expandPoint p t ⟨successors, checks, consistent,
        ((b.store.setDone fp).pointsAt fp).length * successors.length⟩ fp revisits) []).Meets
        { b with store := b.store.setDone fp } Q E) :
    (expandState p t fp successors checks revisits).Meets b Q E := by
  rw [expandState]
  refine (meets_sure hbits).bind ?_
  rintro consistent b ⟨hconsistent, rfl⟩
  refine (meets_onStore _).bind ?_
  rintro _ b' rfl
  refine (meets_asks _).bind ?_
  rintro points b' ⟨rfl, rfl⟩
  exact hpoints consistent hconsistent

omit [ModelState σ] in
/-- The answer is a lasso if there was a violation and the path to it can be read. -/
theorem meets_answer {violation : Option Key} {Q : Option Lasso → Builder → Prop} (hnone : violation = none → Q none b)
    (hread : ∀ key f, violation = some key → b.store.pathTo key = .error f → E f b)
    (hlasso : ∀ key path l, violation = some key → b.store.pathTo key = .ok path →
      Lasso.ofCycle path [key.fp, key.fp] = .ok l → Q (some l) b) : (answer violation).Meets b Q E := by
  cases violation with
  | none => exact hnone rfl
  | some key =>
    refine (meets_ask fun f hf => hread key f rfl hf).bind ?_
    rintro path b ⟨hpath, rfl⟩
    have hlast := Store.getLast?_of_pathTo hpath
    obtain ⟨l, hl⟩ : ∃ l, Lasso.ofCycle path [key.fp, key.fp] = .ok l := Lasso.exists_ofCycle hlast rfl rfl
    simp only [hlast, Option.elim_some, hl]
    exact hlasso key path l rfl hpath hl

theorem meets_addProduct {Q : Option Lasso → Builder → Prop}
    (h : (expandState p t fp successors checks revisits).Meets b
      (fun work b' => (expandLate p m t work).Meets b' (fun violation b'' => (answer violation).Meets b'' Q E) E) E) :
    (addProduct p m t fp successors checks revisits).Meets b Q E := by
  rw [addProduct_eq]
  exact h.bind fun work b' hlate => hlate.bind fun violation b'' hanswer => hanswer

omit [ModelState σ] in
theorem meets_plainStep {count : Nat} {n : Node} {x : Fingerprint × Nat} {Q : Node → Builder → Prop}
    (h : (link n ⟨x.1, Key.noPoint⟩ checks.width checks.actions (mulWords x.2 checks.width) (subWords count x.2)
      n.key).Meets b (fun r b' => Q r.1 b') E) : (plainStep checks count n x).Meets b Q E := by
  rw [plainStep]
  exact h.bind fun r b' hr => hr

omit [ModelState σ] in
/-- Without a tableau the one node of the state is read, gets its steps, and is kept. -/
theorem meets_addPlain {fps : List Fingerprint} {Q : Unit → Builder → Prop}
    (hread : ∀ f, (b.store.setDone fp).node ⟨fp, Key.noPoint⟩ = .error f →
      E f { b with store := b.store.setDone fp })
    (hrest : ∀ n, (b.store.setDone fp).node ⟨fp, Key.noPoint⟩ = .ok n →
      (fps.zipIdx.foldlM (plainStep checks fps.length) (n.setState checks.state)).Meets
        { b with store := b.store.setDone fp } (fun n' b' => (keep p n' n.degree revisits).Meets b' Q E) E) :
    (addPlain p fp fps checks revisits).Meets b Q E := by
  rw [addPlain]
  refine (meets_onStore _).bind ?_
  rintro _ b' rfl
  refine (meets_ask hread).bind ?_
  rintro n b' ⟨hn, rfl⟩
  exact (hrest n hn).bind fun n' b' hkeep => hkeep

theorem meets_addNext {Q : Option Lasso → Builder → Prop}
    (hproduct : ∀ t, p.tableau = some t → (addProduct p m t fp successors checks revisits).Meets b Q E)
    (hplain : p.tableau = none →
      (addPlain p fp (successors.map fingerprint) checks revisits).Meets b (fun _ b' => Q none b') E) :
    (addNext p m fp successors checks revisits).Meets b Q E := by
  rw [addNext]
  cases ht : p.tableau with
  | some t => exact hproduct t ht
  | none => exact (hplain ht).bind fun _ b' h => h

end Builder

end Liveness
