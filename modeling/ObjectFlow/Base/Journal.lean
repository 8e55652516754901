import Mathlib.Data.List.Basic
import Mathlib.Data.List.Sort

/-!
# Journals of nested operations

A journal holds a row for each object and the entries recorded of them.  An
operation on an object begins by taking the next position and ends by
recording its entry, and others begin and end in between, so entries are not
recorded in the order of their positions.  An entry's place among its object's,
and what it changed, are settled where it is recorded.

`Advanced` is what any number of whole operations do to a journal.  It is
closed under sequence, and under an operation that begins, lets others run and
ends, which is the one rule that adds an entry.  What is proved of it turns on
re-entrance, an entry recorded on an object while another operation of it is
under way: without it the entries of each object, by position, replay its row;
with it two of them stand in the wrong order.
-/

namespace Base

/-- How a patch changes a content, up to a likeness of contents. -/
structure Folding (α δ : Type) where
  apply : α → δ → α
  same : α → α → Prop
  equivalence : Equivalence same
  congr : ∀ {a b : α} (d : δ), same a b → same (apply a d) (apply b d)

namespace Journal

/-- An object as its entries tell it: its version, its state, none before its
first entry, and the content its next entry is measured from. -/
structure Row (σ α : Type) where
  version : Int
  state : Option σ
  content : α

/-- What one operation recorded of its object. -/
structure Entry (ι σ δ : Type) where
  position : Int
  subject : ι
  seq : Int
  source : Option σ
  target : σ
  patch : δ

end Journal

/-- The rows, the entries in the order recorded, the objects with an operation
under way, the innermost first, and whether one was re-entered. -/
structure Journal (ι σ α δ : Type) where
  position : Int
  underway : List ι
  rows : ι → Journal.Row σ α
  entries : List (Journal.Entry ι σ δ)
  reentered : Bool

namespace Journal

variable {ι σ α δ : Type} (F : Folding α δ)

/-! ### Replaying -/

/-- Entries that replay one row into another: each numbered past the version
before it and taken from the state before it, and their patches, applied in
turn, giving the content. -/
inductive Replays : Row σ α → List (Entry ι σ δ) → Row σ α → Prop
  | nil {r r' : Row σ α} (version : r'.version = r.version) (state : r'.state = r.state)
      (content : F.same r.content r'.content) : Replays r [] r'
  | cons {r r' : Row σ α} {e : Entry ι σ δ} {es : List (Entry ι σ δ)}
      (seq : e.seq = r.version + 1) (source : e.source = r.state)
      (rest : Replays ⟨e.seq, some e.target, F.apply r.content e.patch⟩ es r') :
      Replays r (e :: es) r'

variable {F}

namespace Replays

theorem refl (r : Row σ α) : Replays F r ([] : List (Entry ι σ δ)) r :=
  .nil rfl rfl (F.equivalence.refl _)

/-- Entries replay a row from any content like its own. -/
theorem of_same {r r' q : Row σ α} {es : List (Entry ι σ δ)} (h : Replays F r es r')
    (version : q.version = r.version) (state : q.state = r.state)
    (content : F.same q.content r.content) : Replays F q es r' := by
  induction h generalizing q with
  | nil hversion hstate hcontent =>
      exact .nil (hversion.trans version.symm) (hstate.trans state.symm)
        (F.equivalence.trans content hcontent)
  | cons hseq hsource _ ih =>
      refine .cons (hseq.trans (by rw [version])) (hsource.trans state.symm) ?_
      exact ih rfl rfl (F.congr _ content)

theorem trans {r q r' : Row σ α} {es fs : List (Entry ι σ δ)} (h : Replays F r es q)
    (h' : Replays F q fs r') : Replays F r (es ++ fs) r' := by
  induction h with
  | nil hversion hstate hcontent =>
      exact h'.of_same hversion.symm hstate.symm hcontent
  | cons hseq hsource _ ih => exact .cons hseq hsource (ih h')

theorem single {r r' : Row σ α} {e : Entry ι σ δ} (seq : e.seq = r.version + 1)
    (source : e.source = r.state) (version : r'.version = e.seq)
    (state : r'.state = some e.target) (content : F.same (F.apply r.content e.patch) r'.content) :
    Replays F r [e] r' :=
  .cons seq source (.nil version state content)

theorem seq_gt {r r' : Row σ α} {es : List (Entry ι σ δ)} (h : Replays F r es r') :
    ∀ e ∈ es, r.version < e.seq := by
  induction h with
  | nil => simp
  | cons hseq _ _ ih =>
      intro e he
      rcases List.mem_cons.mp he with rfl | he
      · omega
      · have := ih e he
        simp only at this
        omega

/-- The entries are numbered in their order. -/
theorem increasing {r r' : Row σ α} {es : List (Entry ι σ δ)} (h : Replays F r es r') :
    es.Pairwise fun a b => a.seq < b.seq := by
  induction h with
  | nil => exact List.Pairwise.nil
  | cons _ _ hrest ih => exact List.Pairwise.cons hrest.seq_gt ih

/-- The patches, applied in turn, give the content. -/
theorem content {r r' : Row σ α} {es : List (Entry ι σ δ)} (h : Replays F r es r') :
    F.same (es.foldl (fun a e => F.apply a e.patch) r.content) r'.content := by
  induction h with
  | nil _ _ hcontent => exact hcontent
  | cons _ _ _ ih => exact ih

end Replays

/-- Two entries of one object whose numbers do not follow their positions. -/
def Disordered (es : List (Entry ι σ δ)) : Prop :=
  ∃ a ∈ es, ∃ b ∈ es, a.subject = b.subject ∧ a.position < b.position ∧ b.seq ≤ a.seq

theorem Disordered.mono {es fs : List (Entry ι σ δ)} (h : Disordered es) (hsub : es ⊆ fs) :
    Disordered fs := by
  obtain ⟨a, ha, b, hb, hab⟩ := h
  exact ⟨a, hsub ha, b, hsub hb, hab⟩

/-! ### Whole operations -/

variable [DecidableEq ι]

/-- The entries of one object. -/
def of (es : List (Entry ι σ δ)) (i : ι) : List (Entry ι σ δ) :=
  es.filter fun e => e.subject = i

@[simp] theorem of_nil (i : ι) : of ([] : List (Entry ι σ δ)) i = [] := rfl

@[simp] theorem of_append (es fs : List (Entry ι σ δ)) (i : ι) :
    of (es ++ fs) i = of es i ++ of fs i := by
  simp [of]

theorem of_singleton_self (e : Entry ι σ δ) : of [e] e.subject = [e] := by
  simp [of]

theorem of_singleton_of_ne {e : Entry ι σ δ} {i : ι} (h : e.subject ≠ i) : of [e] i = [] := by
  simp [of, h]

theorem mem_of {es : List (Entry ι σ δ)} {i : ι} {e : Entry ι σ δ} :
    e ∈ of es i ↔ e ∈ es ∧ e.subject = i := by
  simp [of]

variable (F)

/-- What whole operations, one after another and one within another, do to a
journal by recording the entries given. -/
structure Advanced (s : Journal ι σ α δ) (es : List (Entry ι σ δ)) (t : Journal ι σ α δ) :
    Prop where
  entries : t.entries = s.entries ++ es
  underway : t.underway = s.underway
  position : s.position ≤ t.position
  positions : ∀ e ∈ es, s.position < e.position ∧ e.position ≤ t.position
  version : ∀ i, (s.rows i).version ≤ (t.rows i).version
  still : ∀ i, of es i = [] → (t.rows i).version = (s.rows i).version
  first : ∀ i e rest, of es i = e :: rest → e.seq = (s.rows i).version + 1
  kept : s.reentered → t.reentered
  reenters : ∀ e ∈ es, e.subject ∈ s.underway → t.reentered
  disordered : t.reentered →
    s.reentered ∨ Disordered es ∨ ∃ e ∈ es, e.subject ∈ s.underway
  ordered : t.reentered = false → ∀ i, (of es i).Pairwise fun a b => a.position < b.position
  replays : t.reentered = false → ∀ i, i ∉ s.underway →
    Replays F (s.rows i) (of es i) (t.rows i)
  content : t.reentered = false → ∀ i, i ∈ s.underway →
    F.same (s.rows i).content (t.rows i).content

variable {F}

namespace Advanced

theorem refl (s : Journal ι σ α δ) : Advanced F s [] s where
  entries := by simp
  underway := rfl
  position := le_refl _
  positions := by simp
  version := fun _ => le_refl _
  still := fun _ _ => rfl
  first := by simp
  kept := id
  reenters := by simp
  disordered := .inl
  ordered := by simp
  replays := fun _ i _ => Replays.refl _
  content := fun _ i _ => F.equivalence.refl _

/-- What records no entry, and leaves the state of what is not under way. -/
theorem of_unrecorded {s t : Journal ι σ α δ} (entries : t.entries = s.entries)
    (underway : t.underway = s.underway) (position : s.position ≤ t.position)
    (reentered : t.reentered = s.reentered)
    (version : ∀ i, (t.rows i).version = (s.rows i).version)
    (state : ∀ i, i ∉ s.underway → (t.rows i).state = (s.rows i).state)
    (content : ∀ i, F.same (s.rows i).content (t.rows i).content) : Advanced F s [] t where
  entries := by rw [entries, List.append_nil]
  underway := underway
  position := position
  positions := by simp
  version := fun i => (version i).ge
  still := fun i _ => version i
  first := by simp
  kept := fun h => reentered ▸ h
  reenters := by simp
  disordered := fun h => .inl (reentered ▸ h)
  ordered := by simp
  replays := fun _ i hi => .nil (version i) (state i hi) (content i)
  content := fun _ i _ => content i

/-- An object under way put back at the version it had, whatever was recorded
of it. -/
theorem reset {s t u : Journal ι σ α δ} {es : List (Entry ι σ δ)} (h : Advanced F s es t) {i : ι}
    (hi : i ∈ s.underway) (entries : u.entries = t.entries) (underway : u.underway = t.underway)
    (position : t.position ≤ u.position) (reentered : u.reentered = t.reentered)
    (others : ∀ j, j ≠ i → u.rows j = t.rows j)
    (version : (u.rows i).version = (s.rows i).version)
    (content : (u.rows i).content = (t.rows i).content) : Advanced F s es u where
  entries := by rw [entries, h.entries]
  underway := underway.trans h.underway
  position := h.position.trans position
  positions := fun e he => ⟨(h.positions e he).1, (h.positions e he).2.trans position⟩
  version := by
    intro j
    by_cases hj : j = i
    · rw [hj, version]
    · rw [others j hj]
      exact h.version j
  still := by
    intro j hnone
    by_cases hj : j = i
    · rw [hj, version]
    · rw [others j hj, h.still j hnone]
  first := h.first
  kept := fun hs => reentered ▸ h.kept hs
  reenters := fun e he hunder => reentered ▸ h.reenters e he hunder
  disordered := fun hu => h.disordered (reentered ▸ hu)
  ordered := fun hu => h.ordered (reentered ▸ hu)
  replays := by
    intro hu j hj
    have hne : j ≠ i := fun heq => hj (heq ▸ hi)
    rw [others j hne]
    exact h.replays (reentered ▸ hu) j hj
  content := by
    intro hu j hj
    have hsame := h.content (reentered ▸ hu) j hj
    by_cases heq : j = i
    · subst heq
      rw [content]
      exact hsame
    · rw [others j heq]
      exact hsame

/-- An object under way has no entry where none was re-entered. -/
theorem of_underway {s t : Journal ι σ α δ} {es : List (Entry ι σ δ)} (h : Advanced F s es t)
    (hquiet : t.reentered = false) {i : ι} (hi : i ∈ s.underway) : of es i = [] := by
  rw [List.eq_nil_iff_forall_not_mem]
  intro e he
  obtain ⟨hmem, rfl⟩ := mem_of.mp he
  simp [h.reenters e hmem hi] at hquiet

theorem quiet_before {s t : Journal ι σ α δ} {es : List (Entry ι σ δ)} (h : Advanced F s es t)
    (hquiet : t.reentered = false) : s.reentered = false := by
  cases hs : s.reentered with
  | false => rfl
  | true => simp [h.kept hs] at hquiet

/-- **Whole operations follow one another.** -/
theorem trans {s t u : Journal ι σ α δ} {es fs : List (Entry ι σ δ)} (h : Advanced F s es t)
    (h' : Advanced F t fs u) : Advanced F s (es ++ fs) u where
  entries := by rw [h'.entries, h.entries, List.append_assoc]
  underway := h'.underway.trans h.underway
  position := h.position.trans h'.position
  positions := by
    intro e he
    rcases List.mem_append.mp he with he | he
    · have := h.positions e he
      exact ⟨this.1, this.2.trans h'.position⟩
    · have := h'.positions e he
      exact ⟨h.position.trans_lt this.1, this.2⟩
  version := fun i => (h.version i).trans (h'.version i)
  still := by
    intro i hi
    obtain ⟨hes, hfs⟩ := List.append_eq_nil_iff.mp (of_append es fs i ▸ hi)
    rw [h'.still i hfs, h.still i hes]
  first := by
    intro i e rest hi
    rw [of_append] at hi
    cases hes : of es i with
    | nil =>
        rw [hes, List.nil_append] at hi
        rw [h'.first i e rest hi, h.still i hes]
    | cons e' rest' =>
        rw [hes, List.cons_append] at hi
        obtain ⟨rfl, -⟩ := List.cons.inj hi
        exact h.first i _ rest' hes
  kept := fun hs => h'.kept (h.kept hs)
  reenters := by
    intro e he hunder
    rcases List.mem_append.mp he with he | he
    · exact h'.kept (h.reenters e he hunder)
    · exact h'.reenters e he (h.underway ▸ hunder)
  disordered := by
    intro hu
    rcases h'.disordered hu with ht | hfs | ⟨e, he, hunder⟩
    · rcases h.disordered ht with hs | hes | ⟨e, he, hunder⟩
      · exact .inl hs
      · exact .inr (.inl (hes.mono (List.subset_append_left _ _)))
      · exact .inr (.inr ⟨e, List.mem_append_left _ he, hunder⟩)
    · exact .inr (.inl (hfs.mono (List.subset_append_right _ _)))
    · exact .inr (.inr ⟨e, List.mem_append_right _ he, h.underway ▸ hunder⟩)
  ordered := by
    intro hu i
    rw [of_append, List.pairwise_append]
    refine ⟨h.ordered (h'.quiet_before hu) i, h'.ordered hu i, ?_⟩
    intro a ha b hb
    have hleft := (h.positions a (mem_of.mp ha).1).2
    have hright := (h'.positions b (mem_of.mp hb).1).1
    exact hleft.trans_lt hright
  replays := by
    intro hu i hi
    rw [of_append]
    have hleft := h.replays (h'.quiet_before hu) i hi
    exact hleft.trans (h'.replays hu i (h.underway ▸ hi))
  content := by
    intro hu i hi
    have hleft := h.content (h'.quiet_before hu) i hi
    exact F.equivalence.trans hleft (h'.content hu i (h.underway ▸ hi))

/-- **One operation.**  It takes its position, lets others run, and records its
entry, its object's row changed by nothing else but the others. -/
theorem operation {s₀ s₁ s₂ s₃ : Journal ι σ α δ} {es : List (Entry ι σ δ)} {e : Entry ι σ δ}
    (body : Advanced F s₁ es s₂)
    (begun : s₁.position = s₀.position + 1) (under : s₁.underway = e.subject :: s₀.underway)
    (unchanged : s₁.entries = s₀.entries) (flag : s₁.reentered = s₀.reentered)
    (others : ∀ i, i ≠ e.subject → s₁.rows i = s₀.rows i)
    (version : (s₁.rows e.subject).version = (s₀.rows e.subject).version)
    (content : (s₁.rows e.subject).content = (s₀.rows e.subject).content)
    (hposition : e.position = s₀.position + 1)
    (hsource : e.source = (s₀.rows e.subject).state)
    (hseq : e.seq = (s₂.rows e.subject).version + 1)
    (recorded : s₃.entries = s₂.entries ++ [e]) (ended : s₃.position = s₂.position)
    (popped : s₃.underway = s₀.underway)
    (flagged : s₃.reentered = (s₂.reentered || decide (e.subject ∈ s₀.underway)))
    (others' : ∀ i, i ≠ e.subject → s₃.rows i = s₂.rows i)
    (version' : (s₃.rows e.subject).version = e.seq)
    (state' : (s₃.rows e.subject).state = some e.target)
    (content' : F.same (F.apply (s₂.rows e.subject).content e.patch)
      (s₃.rows e.subject).content) : Advanced F s₀ (es ++ [e]) s₃ := by
  have hquiet : s₃.reentered = false → s₂.reentered = false ∧ e.subject ∉ s₀.underway := by
    intro h
    rw [flagged] at h
    simpa using h
  have hmine : e.subject ∈ s₁.underway := by
    rw [under]
    exact List.mem_cons_self
  have hbody : s₃.reentered = false → of es e.subject = [] := fun h =>
    body.of_underway (hquiet h).1 hmine
  have hof : ∀ i, i ≠ e.subject → of (es ++ [e]) i = of es i := by
    intro i hi
    rw [of_append, of_singleton_of_ne (Ne.symm hi), List.append_nil]
  refine
    { entries := by rw [recorded, body.entries, unchanged, List.append_assoc]
      underway := popped
      position := ?_
      positions := ?_
      version := ?_
      still := ?_
      first := ?_
      kept := ?_
      reenters := ?_
      disordered := ?_
      ordered := ?_
      replays := ?_
      content := ?_ }
  · have := body.position
    omega
  · intro f hf
    have hle := body.position
    rcases List.mem_append.mp hf with hf | hf
    · have := body.positions f hf
      omega
    · obtain rfl := List.mem_singleton.mp hf
      omega
  · intro i
    by_cases hi : i = e.subject
    · subst hi
      have := body.version e.subject
      omega
    · rw [others' i hi, ← others i hi]
      exact body.version i
  · intro i hnone
    have hne : i ≠ e.subject := by
      rintro rfl
      rw [of_append, of_singleton_self] at hnone
      simp at hnone
    rw [others' i hne, body.still i (hof i hne ▸ hnone), others i hne]
  · intro i f rest hfirst
    by_cases hi : i = e.subject
    · subst hi
      rw [of_append, of_singleton_self] at hfirst
      cases hes : of es e.subject with
      | nil =>
          rw [hes, List.nil_append] at hfirst
          obtain ⟨rfl, -⟩ := List.cons.inj hfirst
          rw [hseq, body.still _ hes, version]
      | cons g others =>
          rw [hes, List.cons_append] at hfirst
          obtain ⟨rfl, -⟩ := List.cons.inj hfirst
          rw [body.first _ _ _ hes, version]
    · rw [body.first i f rest (hof i hi ▸ hfirst), others i hi]
  · intro h
    rw [flagged, body.kept (flag ▸ h)]
    rfl
  · intro f hf hunder
    rcases List.mem_append.mp hf with hf | hf
    · rw [flagged, body.reenters f hf (by rw [under]; exact List.mem_cons_of_mem _ hunder)]
      rfl
    · obtain rfl := List.mem_singleton.mp hf
      rw [flagged]
      simp [hunder]
  · intro h
    rw [flagged, Bool.or_eq_true, decide_eq_true_eq] at h
    rcases h with h | h
    · rcases body.disordered h with h | h | ⟨f, hf, hunder⟩
      · exact .inl (flag ▸ h)
      · exact .inr (.inl (h.mono (List.subset_append_left _ _)))
      · rw [under] at hunder
        rcases List.mem_cons.mp hunder with hsubject | hunder
        · -- an entry of the object recorded while its operation was under way
          refine .inr (.inl ?_)
          have hmem : f ∈ of es e.subject := mem_of.mpr ⟨hf, hsubject⟩
          obtain ⟨g, rest, hes⟩ := List.exists_cons_of_ne_nil (List.ne_nil_of_mem hmem)
          have hg : g ∈ es ∧ g.subject = e.subject := mem_of.mp (hes ▸ List.mem_cons_self)
          refine ⟨e, by simp, g, List.mem_append_left _ hg.1, hg.2.symm, ?_, ?_⟩
          · have := (body.positions g hg.1).1
            omega
          · have := body.first _ _ _ hes
            have := body.version e.subject
            omega
        · exact .inr (.inr ⟨f, List.mem_append_left _ hf, hunder⟩)
    · exact .inr (.inr ⟨e, by simp, h⟩)
  · intro h i
    by_cases hi : i = e.subject
    · subst hi
      rw [of_append, hbody h, of_singleton_self]
      exact List.pairwise_singleton _ _
    · rw [hof i hi]
      exact body.ordered (hquiet h).1 i
  · intro h i hunder
    by_cases hi : i = e.subject
    · subst hi
      have hsame := body.content (hquiet h).1 _ hmine
      rw [of_append, hbody h, of_singleton_self]
      refine Replays.single ?_ hsource version' state' ?_
      · rw [hseq, body.still _ (hbody h), version]
      · rw [← content]
        exact F.equivalence.trans (F.congr _ hsame) content'
    · rw [hof i hi, others' i hi, ← others i hi]
      refine body.replays (hquiet h).1 i ?_
      rw [under]
      simp [hi, hunder]
  · intro h i hunder
    have hne : i ≠ e.subject := fun heq => (hquiet h).2 (heq ▸ hunder)
    rw [others' i hne, ← others i hne]
    refine body.content (hquiet h).1 i ?_
    rw [under]
    exact List.mem_cons_of_mem _ hunder

/-- **Replay, exactly without re-entrance.**  From a journal with nothing under
way, each object's entries replay its row in the order of their positions
where no object was re-entered. -/
theorem replays_of_quiet {s t : Journal ι σ α δ} {es : List (Entry ι σ δ)}
    (h : Advanced F s es t) (hidle : s.underway = []) (hquiet : t.reentered = false) (i : ι) :
    (of es i).Pairwise (fun a b => a.position < b.position) ∧
      Replays F (s.rows i) (of es i) (t.rows i) :=
  ⟨h.ordered hquiet i, h.replays hquiet i (by simp [hidle])⟩

/-- A re-entered object has two entries out of order. -/
theorem disordered_of_reentered {s t : Journal ι σ α δ} {es : List (Entry ι σ δ)}
    (h : Advanced F s es t) (hidle : s.underway = []) (hnew : s.reentered = false)
    (hreentered : t.reentered) : Disordered es := by
  rcases h.disordered hreentered with hs | hes | ⟨e, _, he⟩
  · simp [hs] at hnew
  · exact hes
  · simp [hidle] at he

end Advanced

end Journal

end Base
