import Mathlib

/-!
# A search down what nodes read

Nodes read nodes.  The search goes from a node down to the first of its reads not yet
counted, and comes back up when all of them are: it counts what a node has of its own
and what each of its reads counts.  A read of a node the search is still inside of
counts as the caller says, and is noted.  Each node is entered once, so the search
ends; it notes a read just where a node reads itself, however far down; and where none
does, what it counts of a node is what the node's own reads sum to.
-/

namespace Base

/-- What nodes read, what each counts of its own, how a read's count is added to it,
what a read back into the path counts, and what is noted of one: the path to the node
reading, and the node read. -/
structure Descent (ν ρ σ : Type*) where
  reads : ν → List ν
  enter : ν → ρ
  add : ρ → ρ → ρ
  back : ρ
  meets : List ν → ν → σ → σ

namespace Descent

/-- A node on the path, the reads it has left, and what it counts so far. -/
structure Frame (ν ρ : Type*) where
  node : ν
  left : List ν
  count : ρ

/-- Where a search is: the path, its last node first, what it has counted, the last
first, and what it has noted. -/
structure Search (ν ρ σ : Type*) where
  path : List (Frame ν ρ) := []
  done : List (ν × ρ) := []
  noted : σ

variable {ν ρ σ : Type*} [DecidableEq ν]

/-- What a node was counted as. -/
def counted? (done : List (ν × ρ)) (n : ν) : Option ρ := (done.find? fun e => e.1 = n).map Prod.snd

variable (d : Descent ν ρ σ)

/-- A node entered. -/
def entered (n : ν) : Frame ν ρ := ⟨n, d.reads n, d.enter n⟩

/-- A read's count given to the node reading it. -/
def give (r : ρ) : List (Frame ν ρ) → List (Frame ν ρ)
  | [] => []
  | f :: rest => { f with count := d.add f.count r } :: rest

/-- The nodes a search is inside of, the first first. -/
def trail (path : List (Frame ν ρ)) : List ν := (path.map Frame.node).reverse

/-- One step of a search. -/
def step (s : Search ν ρ σ) : Search ν ρ σ :=
  match s.path with
  | [] => s
  | ⟨n, [], r⟩ :: rest => { s with path := d.give r rest, done := (n, r) :: s.done }
  | ⟨n, c :: left, r⟩ :: rest =>
      match counted? s.done c with
      | some t => { s with path := ⟨n, left, d.add r t⟩ :: rest }
      | none =>
          if c ∈ s.path.map Frame.node then
            { s with
              path := ⟨n, left, d.add r d.back⟩ :: rest
              noted := d.meets (trail s.path) c s.noted }
          else { s with path := d.entered c :: ⟨n, left, r⟩ :: rest }

/-- Steps to the end of the path. -/
def descend : Nat → Search ν ρ σ → Option (Search ν ρ σ)
  | fuel, s =>
      if s.path.isEmpty then some s
      else
        match fuel with
        | 0 => none
        | fuel + 1 => descend fuel (d.step s)

/-- A search from each node in turn that none before it counted. -/
def search (fuel : Nat) : List ν → Search ν ρ σ → Option (Search ν ρ σ)
  | [], s => some s
  | n :: rest, s =>
      if (counted? s.done n).isSome then search fuel rest s
      else (d.descend fuel { s with path := [d.entered n] }).bind (search fuel rest)

/-- Steps enough for a search from any of the nodes. -/
def enough (nodes : List ν) : Nat := (nodes.map fun n => (d.reads n).length + 2).sum

/-! ### Its steps -/

variable {d} {s : Search ν ρ σ} {n c : ν} {left : List ν} {r t : ρ} {rest : List (Frame ν ρ)}

theorem step_done (h : s.path = ⟨n, [], r⟩ :: rest) :
    d.step s = { s with path := d.give r rest, done := (n, r) :: s.done } := by
  unfold step
  rw [h]

theorem step_counted (h : s.path = ⟨n, c :: left, r⟩ :: rest) (hc : counted? s.done c = some t) :
    d.step s = { s with path := ⟨n, left, d.add r t⟩ :: rest } := by
  unfold step
  rw [h]
  simp only [hc]

theorem step_back (h : s.path = ⟨n, c :: left, r⟩ :: rest) (hc : counted? s.done c = none)
    (hin : c ∈ s.path.map Frame.node) :
    d.step s = { s with
      path := ⟨n, left, d.add r d.back⟩ :: rest
      noted := d.meets (trail s.path) c s.noted } := by
  unfold step
  rw [h] at hin ⊢
  simp only [hc]
  rw [if_pos hin]

theorem step_enter (h : s.path = ⟨n, c :: left, r⟩ :: rest) (hc : counted? s.done c = none)
    (hout : c ∉ s.path.map Frame.node) :
    d.step s = { s with path := d.entered c :: ⟨n, left, r⟩ :: rest } := by
  unfold step
  rw [h] at hout ⊢
  simp only [hc]
  rw [if_neg hout]

theorem counted?_cons (n m : ν) (r : ρ) (done : List (ν × ρ)) :
    counted? ((n, r) :: done) m = if n = m then some r else counted? done m := by
  unfold counted?
  rw [List.find?_cons]
  by_cases h : n = m <;> simp [h]

omit [DecidableEq ν] in
theorem give_node (r : ρ) (path : List (Frame ν ρ)) :
    (d.give r path).map Frame.node = path.map Frame.node := by
  cases path <;> rfl

omit [DecidableEq ν] in
/-- What holds of a frame whatever it counts holds of one given a count. -/
theorem mem_give {P : ν → List ν → Prop} (h : ∀ f ∈ rest, P f.node f.left) :
    ∀ f ∈ d.give r rest, P f.node f.left := by
  cases rest with
  | nil => exact h
  | cons g rest =>
      intro f hf
      rcases List.mem_cons.mp hf with rfl | hf
      · exact h g List.mem_cons_self
      · exact h f (List.mem_cons_of_mem _ hf)

/-! ### What holds all along it -/

variable (d) in
/-- A search under way: each node it is inside of is read by the one before it, is
inside of once and not counted, and has some last of its reads left. -/
structure Running (s : Search ν ρ σ) : Prop where
  leads : (s.path.map Frame.node).IsChain fun a b => a ∈ d.reads b
  kept : ∀ f ∈ s.path, f.left <:+ d.reads f.node
  apart : (s.path.map Frame.node).Nodup
  fresh : ∀ f ∈ s.path, counted? s.done f.node = none

/-- A search under way reads, at a frame, what its node reads. -/
theorem Running.reads (h : d.Running s) (hpath : s.path = ⟨n, c :: left, r⟩ :: rest) :
    c ∈ d.reads n :=
  (h.kept ⟨n, c :: left, r⟩ (by rw [hpath]; exact List.mem_cons_self)).subset List.mem_cons_self

/-- What one step of a search does: it is at its end, a node's reads are all done, or
the next of them is counted already, is one it is inside of, or is entered. -/
theorem step_cases (d : Descent ν ρ σ) (s : Search ν ρ σ) :
    (s.path = [] ∧ d.step s = s) ∨
    (∃ n r rest, s.path = ⟨n, [], r⟩ :: rest ∧
      d.step s = { s with path := d.give r rest, done := (n, r) :: s.done }) ∨
    ∃ n c left r rest, s.path = ⟨n, c :: left, r⟩ :: rest ∧
      ((∃ t, counted? s.done c = some t ∧
          d.step s = { s with path := ⟨n, left, d.add r t⟩ :: rest }) ∨
        (counted? s.done c = none ∧ c ∈ s.path.map Frame.node ∧
          d.step s = { s with
            path := ⟨n, left, d.add r d.back⟩ :: rest
            noted := d.meets (trail s.path) c s.noted }) ∨
        counted? s.done c = none ∧ c ∉ s.path.map Frame.node ∧
          d.step s = { s with path := d.entered c :: ⟨n, left, r⟩ :: rest }) := by
  match hpath : s.path with
  | [] => exact .inl ⟨rfl, by unfold step; rw [hpath]⟩
  | ⟨n, [], r⟩ :: rest => exact .inr (.inl ⟨n, r, rest, rfl, step_done hpath⟩)
  | ⟨n, c :: left, r⟩ :: rest =>
      refine .inr (.inr ⟨n, c, left, r, rest, rfl, ?_⟩)
      rw [← hpath]
      cases hc : counted? s.done c with
      | some t => exact .inl ⟨t, rfl, step_counted hpath hc⟩
      | none =>
          by_cases hin : c ∈ s.path.map Frame.node
          · exact .inr (.inl ⟨rfl, hin, step_back hpath hc hin⟩)
          · exact .inr (.inr ⟨rfl, hin, step_enter hpath hc hin⟩)

/-- A search reads on at the last node of its path. -/
theorem Running.on (h : d.Running s) (hpath : s.path = ⟨n, c :: left, r⟩ :: rest) (t : ρ)
    (noted : σ) : d.Running { s with path := ⟨n, left, t⟩ :: rest, noted } where
  leads := by
    have := h.leads
    rw [hpath] at this
    exact this
  kept f hf := by
    rcases List.mem_cons.mp hf with rfl | hf
    · exact (List.suffix_cons c left).trans
        (h.kept ⟨n, c :: left, r⟩ (by rw [hpath]; exact List.mem_cons_self))
    · exact h.kept f (by rw [hpath]; exact List.mem_cons_of_mem _ hf)
  apart := by
    have := h.apart
    rw [hpath] at this
    exact this
  fresh f hf := by
    rcases List.mem_cons.mp hf with rfl | hf
    · exact h.fresh ⟨n, c :: left, r⟩ (by rw [hpath]; exact List.mem_cons_self)
    · exact h.fresh f (by rw [hpath]; exact List.mem_cons_of_mem _ hf)

/-- A search goes on as it was under way. -/
theorem Running.step (h : d.Running s) : d.Running (d.step s) := by
  rcases step_cases d s with ⟨-, hstep⟩ | ⟨n, r, rest, hpath, hstep⟩ |
    ⟨n, c, left, r, rest, hpath, ⟨t, -, hstep⟩ | ⟨-, -, hstep⟩ | ⟨hc, hout, hstep⟩⟩
  · rwa [hstep]
  · have hapart := h.apart
    rw [hpath] at hapart
    obtain ⟨hnot, hrest⟩ := List.nodup_cons.mp hapart
    have hin : ∀ f ∈ rest, f ∈ s.path := fun f hf => by
      rw [hpath]
      exact List.mem_cons_of_mem _ hf
    rw [hstep]
    constructor
    · have := h.leads
      rw [hpath] at this
      dsimp only
      rw [give_node]
      exact this.tail
    · exact @mem_give _ _ _ d r rest (fun n left => left <:+ d.reads n)
        fun f hf => h.kept f (hin f hf)
    · dsimp only
      rwa [give_node]
    · refine @mem_give _ _ _ d r rest (fun m _ => counted? ((n, r) :: s.done) m = none) fun f hf => ?_
      rw [counted?_cons, if_neg fun heq => hnot (List.mem_map.mpr ⟨f, hf, heq.symm⟩)]
      exact h.fresh f (hin f hf)
  · rw [hstep]
    exact h.on hpath _ _
  · rw [hstep]
    exact h.on hpath _ _
  · rw [hstep]
    have hon := h.on hpath r s.noted
    have hread := h.reads hpath
    rw [hpath] at hout
    exact ⟨List.isChain_cons_cons.mpr ⟨hread, hon.leads⟩,
      fun f hf => (List.mem_cons.mp hf).elim (fun heq => heq ▸ List.suffix_rfl) (hon.kept f),
      List.nodup_cons.mpr ⟨hout, hon.apart⟩,
      fun f hf => (List.mem_cons.mp hf).elim (fun heq => by rw [heq]; exact hc) (hon.fresh f)⟩

theorem Running.start (h : counted? s.done n = none) :
    d.Running { s with path := [d.entered n] } where
  leads := List.isChain_singleton _
  kept f hf := by
    rw [List.mem_singleton.mp hf]
    exact List.suffix_rfl
  apart := List.nodup_singleton _
  fresh f hf := by
    rw [List.mem_singleton.mp hf]
    exact h

/-- A read back into the path closes a walk: down the path from the node read to the
node reading it, and back. -/
theorem Running.walk (h : d.Running s) (hpath : s.path = ⟨n, c :: left, r⟩ :: rest)
    (hin : c ∈ s.path.map Frame.node) :
    (trail s.path).IsChain (fun a b => b ∈ d.reads a) ∧ c ∈ trail s.path ∧
      (trail s.path).getLast? = some n ∧ c ∈ d.reads n := by
  refine ⟨?_, List.mem_reverse.mpr hin, ?_, h.reads hpath⟩
  · unfold trail
    rw [List.isChain_reverse]
    exact h.leads
  · unfold trail
    rw [hpath]
    simp

/-! ### It ends -/

variable (d) in
/-- What a search has still to do: the reads its path has left, and the nodes not
entered. -/
def todo (nodes : List ν) (s : Search ν ρ σ) : Nat :=
  (s.path.map fun f => f.left.length + 1).sum +
    ((nodes.filter fun n => (counted? s.done n).isNone && n ∉ s.path.map Frame.node).map
      fun n => (d.reads n).length + 2).sum

omit [DecidableEq ν] in
theorem sum_filter_lt {nodes : List ν} {p q : ν → Bool} {f : ν → Nat} (hsub : ∀ x, p x → q x)
    (hmem : n ∈ nodes) (hq : q n = true) (hp : p n = false) :
    ((nodes.filter p).map f).sum + f n ≤ ((nodes.filter q).map f).sum := by
  induction nodes with
  | nil => cases hmem
  | cons x nodes ih =>
      have hle : ((nodes.filter p).map f).sum ≤ ((nodes.filter q).map f).sum := by
        clear ih hmem
        induction nodes with
        | nil => rfl
        | cons y nodes ih =>
            cases hpy : p y with
            | true => simpa [hpy, hsub y hpy] using ih
            | false => cases hqy : q y <;> simp [hpy, hqy] <;> omega
      rcases List.mem_cons.mp hmem with rfl | hmem
      · simp [hp, hq]
        omega
      · have := ih hmem
        cases hpx : p x with
        | true =>
            simp [hpx, hsub x hpx]
            omega
        | false => cases hqx : q x <;> simp [hpx, hqx] <;> omega

variable {nodes : List ν}

/-- Each step leaves less to do. -/
theorem todo_step (h : d.Running s) (hclosed : ∀ n ∈ nodes, ∀ c ∈ d.reads n, c ∈ nodes)
    (hin : ∀ f ∈ s.path, f.node ∈ nodes) (hpath : s.path ≠ []) :
    d.todo nodes (d.step s) < d.todo nodes s ∧ ∀ f ∈ (d.step s).path, f.node ∈ nodes := by
  have hrest : ∀ {f : Frame ν ρ} {rest}, s.path = f :: rest → ∀ g ∈ rest, g.node ∈ nodes :=
    fun hpath g hg => hin g (by rw [hpath]; exact List.mem_cons_of_mem _ hg)
  have hfirst : ∀ {f : Frame ν ρ} {rest}, s.path = f :: rest → f.node ∈ nodes :=
    fun hpath => hin _ (by rw [hpath]; exact List.mem_cons_self)
  rcases step_cases d s with ⟨hnil, -⟩ | ⟨n, r, rest, hpath, hstep⟩ |
    ⟨n, c, left, r, rest, hpath, ⟨t, -, hstep⟩ | ⟨-, -, hstep⟩ | ⟨hc, hout, hstep⟩⟩
  · exact absurd hnil hpath
  · rw [hstep]
    refine ⟨?_, @mem_give _ _ _ d r rest (fun m _ => m ∈ nodes) (hrest hpath)⟩
    have hlefts : ((d.give r rest).map fun f => f.left.length + 1) =
        rest.map fun f => f.left.length + 1 := by
      cases rest <;> rfl
    have hsame : nodes.filter (fun m => (counted? ((n, r) :: s.done) m).isNone &&
        m ∉ (d.give r rest).map Frame.node) =
        nodes.filter fun m => (counted? s.done m).isNone && m ∉ s.path.map Frame.node := by
      refine List.filter_congr fun m _ => ?_
      rw [counted?_cons, give_node, hpath, List.map_cons]
      by_cases hm : n = m
      · simp [hm]
      · simp [hm, Ne.symm hm]
    unfold todo
    rw [hsame, hlefts, hpath]
    simp
  · have hn : n ∈ nodes := hfirst hpath
    rw [hstep]
    refine ⟨?_, List.forall_mem_cons.mpr ⟨hn, hrest hpath⟩⟩
    unfold todo
    rw [hpath]
    simp
  · have hn : n ∈ nodes := hfirst hpath
    rw [hstep]
    refine ⟨?_, List.forall_mem_cons.mpr ⟨hn, hrest hpath⟩⟩
    unfold todo
    rw [hpath]
    simp
  · have hn : n ∈ nodes := hfirst hpath
    have hmem : c ∈ nodes := hclosed n hn c (h.reads hpath)
    rw [hstep]
    constructor
    · have hless := @sum_filter_lt _ c nodes
        (fun m => (counted? s.done m).isNone && m ∉ c :: s.path.map Frame.node)
        (fun m => (counted? s.done m).isNone && m ∉ s.path.map Frame.node)
        (fun n => (d.reads n).length + 2) (by simp +contextual) hmem (by simp [hc, hout]) (by simp)
      unfold todo
      rw [hpath] at hless ⊢
      simp only [List.map_cons, List.sum_cons, List.length_cons, entered] at hless ⊢
      omega
    · exact List.forall_mem_cons.mpr ⟨hmem, List.forall_mem_cons.mpr ⟨hn, hrest hpath⟩⟩

/-- **Steps enough**: as many as there is to do take a search to the end of its path,
keeping what each step keeps. -/
theorem descend_ends {P : Search ν ρ σ → Prop}
    (hclosed : ∀ n ∈ nodes, ∀ c ∈ d.reads n, c ∈ nodes)
    (hstep : ∀ s : Search ν ρ σ, d.Running s → P s → P (d.step s)) {fuel : Nat} (h : d.Running s)
    (hin : ∀ f ∈ s.path, f.node ∈ nodes) (hfuel : d.todo nodes s ≤ fuel) (hP : P s) :
    ∃ s', d.descend fuel s = some s' ∧ s'.path = [] ∧ P s' := by
  induction fuel generalizing s with
  | zero =>
      cases hpath : s.path with
      | nil => exact ⟨s, by simp [descend, hpath], hpath, hP⟩
      | cons f rest =>
          have := (todo_step h hclosed hin (by simp [hpath])).1
          omega
  | succ fuel ih =>
      cases hpath : s.path with
      | nil => exact ⟨s, by simp [descend, hpath], hpath, hP⟩
      | cons f rest =>
          obtain ⟨hless, hin'⟩ := todo_step h hclosed hin (by simp [hpath])
          obtain ⟨s', hend, hdone, hP'⟩ := ih h.step hin' (by omega) (hstep s h hP)
          refine ⟨s', ?_, hdone, hP'⟩
          rw [descend, hpath]
          exact hend

theorem todo_enter (hmem : n ∈ nodes) :
    d.todo nodes { s with path := [d.entered n] } ≤ d.enough nodes := by
  have hless := @sum_filter_lt _ n nodes
    (fun m => (counted? s.done m).isNone && m ∉ [n]) (fun _ => true)
    (fun n => (d.reads n).length + 2) (by simp) hmem rfl (by simp)
  unfold todo enough
  simp only [List.map_cons, List.map_nil, List.sum_cons, List.sum_nil, entered,
    List.filter_true] at hless ⊢
  omega

/-- A node entered is counted, or the search is inside of it. -/
def Met (n : ν) (s : Search ν ρ σ) : Prop :=
  (counted? s.done n).isSome ∨ n ∈ s.path.map Frame.node

theorem Met.step (h : Met n s) : Met n (d.step s) := by
  rcases step_cases d s with ⟨-, hstep⟩ | ⟨m, r, rest, hpath, hstep⟩ |
    ⟨m, c, left, r, rest, hpath, ⟨t, -, hstep⟩ | ⟨-, -, hstep⟩ | ⟨-, -, hstep⟩⟩ <;>
    rw [hstep]
  · exact h
  · unfold Met at h ⊢
    rw [hpath] at h
    rw [counted?_cons, give_node]
    by_cases hm : m = n
    · simp [hm]
    · simpa [hm, Ne.symm hm] using h
  all_goals
    unfold Met at h ⊢
    rw [hpath] at h
    simp only [List.map_cons, List.mem_cons] at h ⊢
    tauto

/-- **A search's rule.**  What each step keeps, and entering a node keeps, holds at its
end; and by then every node it was to start from is counted. -/
theorem search_ends {P : Search ν ρ σ → Prop}
    (hclosed : ∀ n ∈ nodes, ∀ c ∈ d.reads n, c ∈ nodes)
    (hstep : ∀ s : Search ν ρ σ, d.Running s → P s → P (d.step s))
    (henter : ∀ (s : Search ν ρ σ) n, n ∈ nodes → s.path = [] → counted? s.done n = none → P s →
      P { s with path := [d.entered n] })
    {starts : List ν} (hstarts : ∀ n ∈ starts, n ∈ nodes) {fuel : Nat}
    (hfuel : d.enough nodes ≤ fuel) (hpath : s.path = []) (hP : P s) :
    ∃ s', d.search fuel starts s = some s' ∧ s'.path = [] ∧ P s' ∧
      (∀ n ∈ starts, (counted? s'.done n).isSome) ∧
      ∀ n, (counted? s.done n).isSome → (counted? s'.done n).isSome := by
  induction starts generalizing s with
  | nil => exact ⟨s, rfl, hpath, hP, by simp, fun _ h => h⟩
  | cons n rest ih =>
      obtain ⟨hn, hrest⟩ := List.forall_mem_cons.mp hstarts
      cases hcounted : (counted? s.done n).isSome with
      | true =>
          obtain ⟨s', hend, hdone, hP', hall, hkept⟩ := ih hrest hpath hP
          refine ⟨s', ?_, hdone, hP', List.forall_mem_cons.mpr ⟨hkept n hcounted, hall⟩, hkept⟩
          rw [search, if_pos hcounted, hend]
      | false =>
          have hfresh : counted? s.done n = none :=
            Option.not_isSome_iff_eq_none.mp (by simp [hcounted])
          obtain ⟨s₁, hdescend, hend₁, hP₁, hmet⟩ := @descend_ends _ _ _ _ d
            { s with path := [d.entered n] } nodes
            (fun s' => P s' ∧ ∀ m, m = n ∨ (counted? s.done m).isSome → Met m s') hclosed
            (fun s' hrunning hs' => ⟨hstep s' hrunning hs'.1, fun m hm => (hs'.2 m hm).step⟩) fuel
            (.start hfresh) (by simpa [entered] using hn) ((todo_enter hn).trans hfuel)
            ⟨henter s n hn hpath hfresh hP, fun m hm => hm.elim
              (fun heq => .inr (by simp [heq, entered])) .inl⟩
          have hcounted₁ : ∀ m, m = n ∨ (counted? s.done m).isSome → (counted? s₁.done m).isSome := by
            intro m hm
            rcases hmet m hm with h | h
            · exact h
            · rw [hend₁] at h
              cases h
          obtain ⟨s', hsearch, hdone, hP', hall, hkept⟩ := ih hrest hend₁ hP₁
          refine ⟨s', ?_, hdone, hP', List.forall_mem_cons.mpr ⟨?_, hall⟩, fun m hm => ?_⟩
          · rw [search, hcounted, if_neg (by simp), hdescend]
            exact hsearch
          · exact hkept n (hcounted₁ n (.inl rfl))
          · exact hkept m (hcounted₁ m (.inr hm))

/-! ### What it notes -/

variable (d) in
/-- One node reads another, however far down. -/
def Reads : ν → ν → Prop := Relation.TransGen fun a b => b ∈ d.reads a

/-- **What is noted closes a walk.**  What holds of nothing noted and of what is noted
of each read back along a walk to a node on it holds of what a search notes. -/
theorem search_noted {P : σ → Prop} (hclosed : ∀ n ∈ nodes, ∀ c ∈ d.reads n, c ∈ nodes)
    (hmeets : ∀ (walk : List ν) (n c : ν) (x : σ), walk.IsChain (fun a b => b ∈ d.reads a) →
      c ∈ walk → walk.getLast? = some n → c ∈ d.reads n → P x → P (d.meets walk c x))
    {starts : List ν} (hstarts : ∀ n ∈ starts, n ∈ nodes) {fuel : Nat}
    (hfuel : d.enough nodes ≤ fuel) (hpath : s.path = []) (hP : P s.noted) :
    ∃ s', d.search fuel starts s = some s' ∧ P s'.noted := by
  have hkeeps : ∀ s : Search ν ρ σ, d.Running s → P s.noted → P (d.step s).noted := by
    intro s hrunning hs
    rcases step_cases d s with ⟨-, hstep⟩ | ⟨m, r, rest, -, hstep⟩ |
      ⟨m, c, left, r, rest, hpath, ⟨t, -, hstep⟩ | ⟨-, hin, hstep⟩ | ⟨-, -, hstep⟩⟩ <;> rw [hstep]
    · exact hs
    · exact hs
    · exact hs
    · obtain ⟨hwalk, hmem, hlast, hread⟩ := hrunning.walk hpath hin
      exact hmeets _ m c _ hwalk hmem hlast hread hs
    · exact hs
  obtain ⟨s', hend, -, hP', -⟩ := search_ends hclosed hkeeps (fun _ _ _ _ _ hs => hs) hstarts hfuel
    hpath hP
  exact ⟨s', hend, hP'⟩

omit [DecidableEq ν] in
/-- A walk from one of its nodes to its last, and back, is a node that reads itself. -/
theorem reads_self {walk : List ν} (hwalk : walk.IsChain fun a b => b ∈ d.reads a)
    (hmem : c ∈ walk) (hlast : walk.getLast? = some n) (hread : c ∈ d.reads n) : d.Reads c c := by
  have hdown : ∀ (walk : List ν), (walk.IsChain fun a b => b ∈ d.reads a) → ∀ a ∈ walk,
      walk.getLast? = some n → Relation.ReflTransGen (fun a b => b ∈ d.reads a) a n := by
    intro walk
    induction walk with
    | nil => simp
    | cons x walk ih =>
        intro hwalk a ha hlast
        cases walk with
        | nil =>
            obtain rfl := List.mem_singleton.mp ha
            obtain rfl := Option.some.inj hlast
            exact .refl
        | cons y walk =>
            obtain ⟨hxy, hrest⟩ := List.isChain_cons_cons.mp hwalk
            rw [List.getLast?_cons_cons] at hlast
            rcases List.mem_cons.mp ha with rfl | ha
            · exact .head hxy (ih hrest y List.mem_cons_self hlast)
            · exact ih hrest a ha hlast
  exact .tail' (hdown walk hwalk c hmem hlast) hread

variable (d) in
/-- A node's count, of some of its reads. -/
def sum (done : List (ν × ρ)) (n : ν) (read : List ν) : ρ :=
  read.foldl (fun r c => d.add r ((counted? done c).getD d.back)) (d.enter n)

variable (d) in
/-- What is counted is counted of what was counted before it. -/
def Settled : List (ν × ρ) → Prop
  | [] => True
  | (n, r) :: rest => Settled rest ∧ counted? rest n = none ∧
      (∀ c ∈ d.reads n, (counted? rest c).isSome) ∧ r = d.sum rest n (d.reads n)

variable (d) in
/-- Each node inside of has counted its reads but those left and the one gone down
to. -/
def Below (done : List (ν × ρ)) : List ν → List (Frame ν ρ) → Prop
  | _, [] => True
  | above, f :: rest =>
      (∃ read, d.reads f.node = read ++ above ++ f.left ∧
        (∀ c ∈ read, (counted? done c).isSome) ∧ f.count = d.sum done f.node read) ∧
      Below done [f.node] rest

variable {done : List (ν × ρ)}

/-- What is counted stays so when another node is. -/
theorem sum_cons {read : List ν} (hfresh : counted? done n = none)
    (hread : ∀ c ∈ read, (counted? done c).isSome) (m : ν) :
    d.sum ((n, r) :: done) m read = d.sum done m read := by
  refine List.foldl_ext _ _ _ fun x c hc => ?_
  have hne : n ≠ c := fun heq => by
    have := hread c hc
    rw [← heq, hfresh] at this
    cases this
  rw [counted?_cons, if_neg hne]

theorem Below.counted {above : List ν} {path : List (Frame ν ρ)} (hfresh : counted? done n = none)
    (h : d.Below done above path) : d.Below ((n, r) :: done) above path := by
  induction path generalizing above with
  | nil => trivial
  | cons f rest ih =>
      obtain ⟨⟨read, hreads, hcounted, hcount⟩, hrest⟩ := h
      refine ⟨⟨read, hreads, fun c hc => ?_, ?_⟩, ih hrest⟩
      · rw [counted?_cons]
        split
        · rfl
        · exact hcounted c hc
      · rw [sum_cons hfresh hcounted, hcount]

/-- A search that reads nothing back settles what it counts. -/
theorem settles_step (h : d.Running s) (hsettled : d.Settled s.done)
    (hbelow : d.Below s.done [] s.path)
    (hback : ∀ n c left r rest, s.path = ⟨n, c :: left, r⟩ :: rest → counted? s.done c = none →
      c ∉ s.path.map Frame.node) :
    d.Settled (d.step s).done ∧ d.Below (d.step s).done [] (d.step s).path := by
  rcases step_cases d s with ⟨-, hstep⟩ | ⟨n, r, rest, hpath, hstep⟩ |
    ⟨n, c, left, r, rest, hpath, ⟨t, hc, hstep⟩ | ⟨hc, hin, -⟩ | ⟨hc, hout, hstep⟩⟩
  · rw [hstep]
    exact ⟨hsettled, hbelow⟩
  · have hfresh := h.fresh ⟨n, [], r⟩ (by rw [hpath]; exact List.mem_cons_self)
    rw [hpath] at hbelow
    obtain ⟨⟨read, hreads, hcounted, hcount⟩, hrest⟩ := hbelow
    obtain rfl : d.reads n = read := by simpa using hreads
    rw [hstep]
    refine ⟨⟨hsettled, hfresh, hcounted, hcount⟩, ?_⟩
    -- the node above takes what this one counted
    cases rest with
    | nil => trivial
    | cons g rest =>
        obtain ⟨⟨before, hreads', hcounted', hcount'⟩, hrest'⟩ := hrest
        refine ⟨⟨before ++ [n], by simpa using hreads', fun c hc => ?_, ?_⟩, hrest'.counted hfresh⟩
        · rw [counted?_cons]
          split
          · rfl
          · next hne =>
              rcases List.mem_append.mp hc with hc | hc
              · exact hcounted' c hc
              · exact absurd (List.mem_singleton.mp hc).symm hne
        · have hsame := @sum_cons _ _ _ _ d n r s.done before hfresh hcounted' g.node
          unfold sum at hsame hcount' ⊢
          rw [List.foldl_append, hsame, ← hcount']
          simp [counted?_cons]
  · rw [hpath] at hbelow
    obtain ⟨⟨read, hreads, hcounted, hcount⟩, hrest⟩ := hbelow
    rw [hstep]
    refine ⟨hsettled, ⟨read ++ [c], by simpa using hreads, fun m hm => ?_, ?_⟩, hrest⟩
    · rcases List.mem_append.mp hm with hm | hm
      · exact hcounted m hm
      · rw [List.mem_singleton.mp hm, hc]
        rfl
    · unfold sum at hcount ⊢
      rw [List.foldl_append, ← hcount]
      simp [hc]
  · exact absurd hin (hback n c left r rest hpath hc)
  · rw [hpath] at hbelow
    obtain ⟨⟨read, hreads, hcounted, hcount⟩, hrest⟩ := hbelow
    rw [hstep]
    exact ⟨hsettled, ⟨[], rfl, by simp, rfl⟩,
      ⟨read, by simpa [entered] using hreads, hcounted, hcount⟩, hrest⟩

/-- **A quiet search settles.**  Where what is noted of a read back is never quiet, a
search that ends quiet has counted each node of what was counted before it. -/
theorem search_settled {quiet : σ → Prop} (hclosed : ∀ n ∈ nodes, ∀ c ∈ d.reads n, c ∈ nodes)
    (hloud : ∀ walk c x, ¬ quiet (d.meets walk c x)) {starts : List ν}
    (hstarts : ∀ n ∈ starts, n ∈ nodes) {fuel : Nat} (hfuel : d.enough nodes ≤ fuel)
    (hpath : s.path = []) (hdone : s.done = []) :
    ∃ s', d.search fuel starts s = some s' ∧ (∀ n ∈ starts, (counted? s'.done n).isSome) ∧
      (quiet s'.noted → d.Settled s'.done) := by
  have hkeeps : ∀ s : Search ν ρ σ, d.Running s →
      (quiet s.noted → d.Settled s.done ∧ d.Below s.done [] s.path) →
      quiet (d.step s).noted →
        d.Settled (d.step s).done ∧ d.Below (d.step s).done [] (d.step s).path := by
    intro s hrunning hs hquiet
    by_cases hback : ∃ n c left r rest, s.path = ⟨n, c :: left, r⟩ :: rest ∧
        counted? s.done c = none ∧ c ∈ s.path.map Frame.node
    · obtain ⟨n, c, left, r, rest, hpath, hc, hin⟩ := hback
      rw [step_back hpath hc hin] at hquiet
      exact absurd hquiet (hloud _ _ _)
    · have hnoted : (d.step s).noted = s.noted := by
        rcases step_cases d s with ⟨-, hstep⟩ | ⟨n, r, rest, -, hstep⟩ |
          ⟨n, c, left, r, rest, hpath, ⟨t, -, hstep⟩ | ⟨hc, hin, -⟩ | ⟨-, -, hstep⟩⟩
        · rw [hstep]
        · rw [hstep]
        · rw [hstep]
        · exact absurd ⟨n, c, left, r, rest, hpath, hc, hin⟩ hback
        · rw [hstep]
      obtain ⟨hsettled, hbelow⟩ := hs (hnoted ▸ hquiet)
      exact settles_step hrunning hsettled hbelow fun n c left r rest hpath hc hin =>
        hback ⟨n, c, left, r, rest, hpath, hc, hin⟩
  obtain ⟨s', hend, -, hsettled, hall, -⟩ := @search_ends _ _ _ _ d s nodes
    (fun s => quiet s.noted → d.Settled s.done ∧ d.Below s.done [] s.path) hclosed hkeeps
    (fun s n _ hpath _ hs hquiet =>
      ⟨(hs hquiet).1, ⟨[], rfl, by simp, rfl⟩, trivial⟩)
    starts hstarts fuel hfuel hpath (fun _ => by rw [hdone, hpath]; exact ⟨trivial, trivial⟩)
  exact ⟨s', hend, hall, fun hquiet => (hsettled hquiet).1⟩

/-- What settles reads nothing back: of what it counts no node reads itself, and what
one reads is counted. -/
theorem Settled.acyclic (h : d.Settled done) :
    ∀ n, (counted? done n).isSome →
      (∀ m, d.Reads n m → (counted? done m).isSome) ∧ ¬ d.Reads n n := by
  induction done with
  | nil => intro n hn; cases hn
  | cons e rest ih =>
      obtain ⟨n, r⟩ := e
      obtain ⟨hrest, hfresh, hreads, -⟩ := h
      have hbelow : ∀ m, d.Reads n m → (counted? rest m).isSome := by
        intro m hm
        obtain ⟨c, hc, hcm⟩ := Relation.TransGen.head'_iff.mp hm
        rcases Relation.reflTransGen_iff_eq_or_transGen.mp hcm with rfl | hcm
        · exact hreads _ hc
        · exact (ih hrest c (hreads c hc)).1 m hcm
      intro m hm
      rw [counted?_cons] at hm
      by_cases heq : n = m
      · subst heq
        refine ⟨fun k hk => ?_, fun hself => ?_⟩
        · rw [counted?_cons]
          split
          · rfl
          · exact hbelow k hk
        · have := hbelow n hself
          rw [hfresh] at this
          cases this
      · rw [if_neg heq] at hm
        refine ⟨fun k hk => ?_, (ih hrest m hm).2⟩
        rw [counted?_cons]
        split
        · rfl
        · exact (ih hrest m hm).1 k hk

theorem Settled.counted_reads (h : d.Settled done) (hn : (counted? done n).isSome) :
    ∀ c ∈ d.reads n, (counted? done c).isSome :=
  fun c hc => (h.acyclic n hn).1 c (.single hc)

/-- What settles is counted as its reads sum to. -/
theorem Settled.count (h : d.Settled done) (hn : counted? done n = some r) :
    r = d.sum done n (d.reads n) := by
  induction done with
  | nil => cases hn
  | cons e rest ih =>
      obtain ⟨m, q⟩ := e
      obtain ⟨hrest, hfresh, hreads, hq⟩ := h
      rw [counted?_cons] at hn
      by_cases heq : m = n
      · subst heq
        rw [if_pos rfl, Option.some.injEq] at hn
        rw [sum_cons hfresh hreads, ← hn, hq]
      · rw [if_neg heq] at hn
        rw [sum_cons hfresh (hrest.counted_reads (by rw [hn]; rfl))]
        exact ih hrest hn

/-- Of what settles, where any node has a property one has it whose reads do not. -/
theorem Settled.exists_first {P : ν → Prop} (h : d.Settled done) (hn : (counted? done n).isSome)
    (hP : P n) : ∃ m, (counted? done m).isSome ∧ P m ∧ ∀ c ∈ d.reads m, ¬ P c := by
  induction done generalizing n with
  | nil => cases hn
  | cons e rest ih =>
      obtain ⟨m, q⟩ := e
      obtain ⟨hrest, -, hreads, -⟩ := h
      have hkept : ∀ {k}, (counted? rest k).isSome → (counted? ((m, q) :: rest) k).isSome := by
        intro k hk
        rw [counted?_cons]
        split
        · rfl
        · exact hk
      by_cases hearlier : ∃ k, (counted? rest k).isSome ∧ P k
      · obtain ⟨k, hk, hPk⟩ := hearlier
        obtain ⟨m', hm', hPm', hfirst⟩ := ih hrest hk hPk
        exact ⟨m', hkept hm', hPm', hfirst⟩
      · rw [counted?_cons] at hn
        by_cases heq : m = n
        · subst heq
          exact ⟨m, by rw [counted?_cons, if_pos rfl]; rfl, hP,
            fun c hc hPc => hearlier ⟨c, hreads c hc, hPc⟩⟩
        · rw [if_neg heq] at hn
          exact absurd ⟨n, hn, hP⟩ hearlier

/-- **A search of nodes none of which reads itself** settles, noting nothing. -/
theorem search_acyclic (hclosed : ∀ n ∈ nodes, ∀ c ∈ d.reads n, c ∈ nodes)
    (hacyclic : ∀ n ∈ nodes, ¬ d.Reads n n) {starts : List ν} (hstarts : ∀ n ∈ starts, n ∈ nodes)
    {fuel : Nat} (hfuel : d.enough nodes ≤ fuel) (hpath : s.path = []) (hdone : s.done = []) :
    ∃ s', d.search fuel starts s = some s' ∧ (∀ n ∈ starts, (counted? s'.done n).isSome) ∧
      d.Settled s'.done ∧ (∀ n, (counted? s'.done n).isSome → n ∈ nodes) ∧ s'.noted = s.noted := by
  have hkeeps : ∀ s₁ : Search ν ρ σ, d.Running s₁ →
      ((d.Settled s₁.done ∧ d.Below s₁.done [] s₁.path) ∧ (∀ f ∈ s₁.path, f.node ∈ nodes) ∧
        (∀ n, (counted? s₁.done n).isSome → n ∈ nodes) ∧ s₁.noted = s.noted) →
      (d.Settled (d.step s₁).done ∧ d.Below (d.step s₁).done [] (d.step s₁).path) ∧
        (∀ f ∈ (d.step s₁).path, f.node ∈ nodes) ∧
        (∀ n, (counted? (d.step s₁).done n).isSome → n ∈ nodes) ∧ (d.step s₁).noted = s.noted := by
    intro s₁ hrunning hs
    obtain ⟨⟨hsettled, hbelow⟩, hin, hcounted, hnoted⟩ := hs
    -- a read back would close a walk
    have hback : ∀ n c left r rest, s₁.path = ⟨n, c :: left, r⟩ :: rest →
        counted? s₁.done c = none → c ∉ s₁.path.map Frame.node := by
      intro n c left r rest hpath _ hmem
      obtain ⟨hwalk, hon, hlast, hread⟩ := hrunning.walk hpath hmem
      obtain ⟨f, hf, rfl⟩ := List.mem_map.mp hmem
      exact hacyclic f.node (hin f hf) (reads_self hwalk hon hlast hread)
    refine ⟨settles_step hrunning hsettled hbelow hback, ?_, ?_, ?_⟩
    · by_cases hpath : s₁.path = []
      · intro f hf
        unfold step at hf
        simp [hpath] at hf
      · exact (todo_step hrunning hclosed hin hpath).2
    all_goals
      rcases step_cases d s₁ with ⟨-, hstep⟩ | ⟨n, r, rest, hpath, hstep⟩ |
        ⟨n, c, left, r, rest, hpath, ⟨t, -, hstep⟩ | ⟨hc, hmem, -⟩ | ⟨-, -, hstep⟩⟩
    · rwa [hstep]
    · rw [hstep]
      intro m hm
      rw [counted?_cons] at hm
      split at hm
      · next heq =>
          exact heq ▸ hin ⟨n, [], r⟩ (by rw [hpath]; exact List.mem_cons_self)
      · exact hcounted m hm
    · rwa [hstep]
    · exact absurd hmem (hback n c left r rest hpath hc)
    · rwa [hstep]
    · rwa [hstep]
    · rwa [hstep]
    · rwa [hstep]
    · exact absurd hmem (hback n c left r rest hpath hc)
    · rwa [hstep]
  obtain ⟨s', hend, -, ⟨⟨hsettled, -⟩, -, hcounted, hnoted⟩, hall, -⟩ := search_ends hclosed hkeeps
    (fun s₁ n hn _ _ hs => ⟨⟨hs.1.1, ⟨[], rfl, by simp, rfl⟩, trivial⟩,
      fun f hf => by rw [List.mem_singleton.mp hf]; exact hn, hs.2.2⟩) hstarts hfuel hpath
    (by
      rw [hdone, hpath]
      exact ⟨⟨trivial, trivial⟩, by simp, by simp [counted?], rfl⟩)
  exact ⟨s', hend, hall, hsettled, hcounted, hnoted⟩

/-- **A search of every node is quiet just where no node reads itself**, where it begins
quiet and what is noted of a read back never is. -/
theorem search_quiet_iff {quiet : σ → Prop} (hclosed : ∀ n ∈ nodes, ∀ c ∈ d.reads n, c ∈ nodes)
    (hloud : ∀ walk c x, ¬ quiet (d.meets walk c x)) {fuel : Nat} (hfuel : d.enough nodes ≤ fuel)
    (hpath : s.path = []) (hdone : s.done = []) (hquiet : quiet s.noted) :
    ∃ s', d.search fuel nodes s = some s' ∧ (quiet s'.noted ↔ ∀ n ∈ nodes, ¬ d.Reads n n) := by
  obtain ⟨s', hend, hall, hsettled⟩ := search_settled (s := s) hclosed hloud
    (fun _ h => h) hfuel hpath hdone
  refine ⟨s', hend, fun hq n hn => ((hsettled hq).acyclic n (hall n hn)).2, fun hacyclic => ?_⟩
  obtain ⟨s'', hend', -, -, -, hnoted⟩ := @search_acyclic _ _ _ _ d s nodes hclosed hacyclic nodes
    (fun _ h => h) fuel hfuel hpath hdone
  obtain rfl := Option.some.inj (hend.symm.trans hend')
  rw [hnoted]
  exact hquiet

end Descent

end Base
