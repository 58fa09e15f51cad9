import PbsCow.InodeCalls

namespace PbsCow.Files
set_option autoImplicit true

/-- An inode that has a type, and a link or a pointer to it. -/
def Linked (s : State) (inum : Nat) : Prop :=
  (content s inum).type ≠ 0 ∧
    ((content s inum).nlink ≠ 0 ∨ ∃ i, Live s i ∧ (s.inode i).inum = inum)

/-- Every entry of a directory names an inode that is there. -/
structure Sane (s : State) : Prop where
  root : Linked s ROOTINO
  child : ∀ inum, (content s inum).type = T_DIR → ∀ de, de ∈ dirents (content s inum).data →
    direntInum de ≠ 0 → Linked s (direntInum de)
  whole : ∀ inum, (content s inum).type = T_DIR → ∀ de, de ∈ dirents (content s inum).data →
    de.length = direntSize
  typed : ∀ i, Live s i → (content s (s.inode i).inum).type ≠ 0

/-- In a tree without damage, only a lock or a full table keeps the code from returning. -/
def Stuck (s : State) (e : Stop) : Prop := Sane s → e = .waits ∨ e = .igetNoInodes

/-- What `namex` finds under an inode. -/
def expected (nameiparent : Bool) (tree : Nat → Dinode) (inum : Nat) (name : List Byte)
    (names : List (List Byte)) : Option (Nat × List Byte) :=
  if nameiparent then resolveParent tree inum names
  else (resolve tree inum names).map fun inum => (inum, names.getLastD name)

theorem lookup_linked (h : Sane s) (hd : (content s inum).type = T_DIR)
    (hl : lookup (content s inum) name = some next) : Linked s next := by
  obtain ⟨de, hde, rfl⟩ := Option.map_eq_some_iff.mp hl
  have hfound := List.find?_some hde
  simp only [decide_eq_true_eq] at hfound
  exact h.child inum hd de (List.mem_of_find?_eq_some hde) hfound.1

theorem expected_cons (nameiparent : Bool) (tree : Nat → Dinode) (inum : Nat) (name name' : List Byte)
    (rest : List (List Byte)) :
    expected nameiparent tree inum name' (name :: rest) =
      if (tree inum).type ≠ T_DIR then none
      else if nameiparent ∧ rest = [] then some (inum, name)
      else (lookup (tree inum) name).bind fun next => expected nameiparent tree next name rest := by
  by_cases hd : (tree inum).type = T_DIR
  · have hchild : child tree inum name = lookup (tree inum) name := if_pos hd
    rw [if_neg (not_not.mpr hd)]
    cases nameiparent with
    | false =>
      rw [if_neg (by simp), expected]
      simp only [expected, resolve, List.foldlM_cons, hchild]
      cases lookup (tree inum) name with
      | none => rfl
      | some next =>
        rw [List.getLastD_cons]
        rfl
    | true =>
      cases rest with
      | nil =>
        rw [if_pos ⟨rfl, rfl⟩]
        simp [expected, resolveParent, resolve, hd]
      | cons name₂ rest =>
        rw [if_neg (by simp), expected]
        simp only [expected, resolveParent, resolve, List.dropLast_cons_cons, List.foldlM_cons, hchild]
        cases lookup (tree inum) name with
        | none => simp
        | some next => simp
  · rw [if_pos hd]
    have hchild : child tree inum name = none := if_neg hd
    cases nameiparent with
    | false => simp [expected, resolve, hchild]
    | true =>
      cases rest with
      | nil => simp [expected, resolveParent, resolve, hd]
      | cons name₂ rest => simp [expected, resolveParent, resolve, hchild]

/-- A state with a pointer of `namex` to entry `i`. -/
structure Holding (s₀ s : State) (i : Nat) : Prop where
  nonneg : ∀ k, 0 ≤ (s₀.inode k).ref
  table : Table s
  live : Live s i
  more : (s₀.inode i).ref < (s.inode i).ref
  named : ∀ k, Live s₀ k → Live s k ∧ (s.inode k).inum = (s₀.inode k).inum
  fades : Fades s₀ s
  sane : Sane s₀ → content s = content s₀ ∧ Linked s₀ (s.inode i).inum

/-- Between two turns of the loop of `namex`. -/
structure Walking (s₀ s : State) (i : Nat) : Prop extends Holding s₀ s i where
  sole : (s.inode i).ref = 1 → (s.inode i).locked = false
  refs : ∀ k, (s.inode k).ref = (s₀.inode k).ref + if k = i then 1 else 0

/-- Nothing is freed while the tree is sane. -/
theorem Holding.stuck (h : Holding s₀ s i) (hfrees : Frees s i) (e : Stop) : Stuck s₀ e := by
  intro hsane
  obtain ⟨htree, -, hlinked⟩ := h.sane hsane
  exfalso
  rcases hlinked with hnlink | ⟨k, hk, hinum⟩
  · apply hnlink
    rw [← htree, h.table.content_live h.live, shown, if_pos hfrees.2.1, hfrees.2.2]
  · have hki : k = i := h.table.distinct k i (h.named k hk).1 h.live ((h.named k hk).2.trans hinum)
    have hpos := hk.2
    have hmore := h.more
    rw [hfrees.1] at hmore
    rw [hki] at hpos
    omega

theorem Holding.calm (h : Holding s₀ s i) (hc : Calm s s')
    (hkept : ∀ k, Live s k → (s'.inode k).inum = (s.inode k).inum ∧ (s.inode k).ref ≤ (s'.inode k).ref) :
    Holding s₀ s' i := by
  have hlive {k : Nat} (hk : Live s k) : Live s' k := ⟨hk.1, lt_of_lt_of_le hk.2 (hkept k hk).2⟩
  refine ⟨h.nonneg, hc.table, hlive h.live, lt_of_lt_of_le h.more (hkept i h.live).2, fun k hk => ?_,
    h.fades.trans hc.fades, fun hsane => ?_⟩
  · obtain ⟨hl, hinum⟩ := h.named k hk
    exact ⟨hlive hl, (hkept k hl).1.trans hinum⟩
  · rw [hc.tree, (hkept i h.live).1]
    exact h.sane hsane

/-- The pointer to the directory is put, and the walk goes on from the one that was found in it. -/
theorem Holding.step (h : Holding s₀ s i) (hgot : Got s inum j s₁) (hput : Put s₁ i s₂)
    (hlocked : (s₂.inode i).locked = false)
    (hrefs : ∀ k, (s.inode k).ref = (s₀.inode k).ref + if k = i then 1 else 0)
    (hlinked : Sane s₀ → Linked s₀ inum) : Walking s₀ s₂ j ∧ (s₂.inode j).inum = inum := by
  have h₁ : Holding s₀ s₁ i := h.calm hgot.calm fun k hk => by
    refine ⟨by rw [hgot.kept k hk], ?_⟩
    rw [hgot.refs k]
    split <;> omega
  have href : ∀ k, (s₂.inode k).ref = (s₀.inode k).ref + if k = j then 1 else 0 := by
    intro k
    have hk₁ := hgot.refs k
    rw [hrefs k] at hk₁
    by_cases hk : k = i
    · rw [hk] at hk₁ ⊢
      rw [if_pos rfl] at hk₁
      rw [hput.ref, hk₁]
      omega
    · rw [if_neg hk, add_zero] at hk₁
      rw [hput.other k hk, hk₁]
  have hinum (k : Nat) : (s₂.inode k).inum = (s₁.inode k).inum := by
    by_cases hk : k = i
    · rw [hk, hput.inum]
    · rw [hput.other k hk]
  have hpos : (s₀.inode j).ref < (s₂.inode j).ref := by
    rw [href j, if_pos rfl]
    omega
  refine ⟨⟨⟨h.nonneg, hput.table, ⟨hgot.live.1, lt_of_le_of_lt (h.nonneg j) hpos⟩, hpos,
    fun k hk => ⟨⟨hk.1, ?_⟩, ?_⟩, h₁.fades.trans hput.fades, ?_⟩, ?_, href⟩, ?_⟩
  · have hk₀ := hk.2
    rw [href k]
    split <;> omega
  · rw [hinum k, (h₁.named k hk).2]
  · intro hsane
    have hkeeps : ¬ Frees s₁ i := fun hfrees => by
      rcases h₁.stuck hfrees .ilock hsane with he | he <;> cases he
    rw [hput.tree hkeeps, hinum j, hgot.inum]
    exact ⟨(h₁.sane hsane).1, hlinked hsane⟩
  · intro h1
    by_cases hj : j = i
    · rw [hj, hlocked]
    · rw [hput.other j hj] at h1 ⊢
      exact hgot.sole h1
  · rw [hinum j, hgot.inum]

theorem Walking.wp_walkNames (h : Walking s₀ s i) (nameiparent : Bool) (name : List Byte)
    (names : List (List Byte)) :
    Wp (walkNames nameiparent i name names) (Stuck s₀) (fun o s' =>
      o.map (fun r => ((s'.inode r.1).inum, r.2)) =
        expected nameiparent (content s₀) (s.inode i).inum name names) s := by
  induction names generalizing s i name with
  | nil =>
    cases nameiparent with
    | true =>
      apply ((h.table.wp_iput h.live h.sole).weaken fun _ hf => h.stuck hf _).bind
      intro _ s' _
      rfl
    | false => rfl
  | cons name' rest ih =>
    rw [walkNames]
    refine .bind ((h.table.wp_ilock h.live).weaken ?_) ?_
    · rintro e (he | htype) hsane
      · exact .inl he
      · rw [(h.sane hsane).1] at htype
        exact absurd htype (h.sane hsane).2.1
    rintro _ s₁ ⟨hcalm, hs, hsync, hhere⟩
    -- the inode that was locked is as it was at the start
    have hsame : content s (s.inode i).inum = content s₀ (s.inode i).inum := by
      rcases (h.fades _).1 with heq | hg
      · exact heq
      · exact absurd hg hhere
    have h₁ : Holding s₀ s₁ i := h.calm hcalm fun k _ => by
      by_cases hk : k = i
      · rw [hk, hs.self]
        exact ⟨rfl, le_rfl⟩
      · rw [hs.other hk]
        exact ⟨rfl, le_rfl⟩
    have hinum : (s₁.inode i).inum = (s.inode i).inum := by rw [hs.self]
    have hdinode : (s₁.inode i).dinode = content s₀ (s.inode i).inum := by rw [hs.self, ← hsame]
    have hlocked : (s₁.inode i).locked = true := by rw [hs.self]
    have hsync₁ : (s₁.inode i).dinode = s₁.disk (s₁.inode i).inum := by rw [hs.2, hs.self, hsync]
    have hleave : Wp (iunlockput i) (Stuck s₀) (fun _ _ => True) s₁ :=
      ((h₁.table.wp_iunlockput h₁.live hlocked fun _ => hsync₁).weaken fun _ hf => h₁.stuck hf _).mono
        fun _ _ _ => trivial
    rw [expected_cons, wp_bind, wp_get, hdinode]
    refine .ite (fun hdir => ?_) fun hdir => ?_
    · rw [if_pos hdir]
      exact hleave.bind fun _ _ _ => rfl
    rw [if_neg hdir]
    refine .ite (fun hlast => ?_) fun hlast => ?_
    · rw [if_pos hlast]
      apply ((h₁.table.wp_iunlock h₁.live hlocked fun _ => hsync₁).weaken fun _ hf => hf.elim).bind
      rintro _ s₂ ⟨-, hs₂⟩
      rw [wp_pure, Option.map_some, hs₂.self, hinum]
    rw [if_neg hlast]
    rw [not_not] at hdir
    refine .bind ((h₁.table.wp_dirlookup (by rw [hdinode, hdir]) name').weaken ?_) ?_
    · rintro e (he | ⟨de, hde, hlen⟩) hsane
      · exact .inr he
      · rw [hdinode] at hde
        exact absurd (hsane.whole _ hdir de hde) hlen
    intro o s₂ hfound
    rw [hdinode] at hfound
    cases o with
    | none =>
      obtain ⟨hnone, rfl⟩ := hfound
      rw [hnone]
      exact hleave.bind fun _ _ _ => rfl
    | some r =>
      obtain ⟨inum, hlookup, hgot⟩ := hfound
      rw [hlookup]
      have hself := hgot.kept i h₁.live
      have h₂ : Holding s₀ s₂ i := h₁.calm hgot.calm fun k hk => by
        refine ⟨by rw [hgot.kept k hk], ?_⟩
        rw [hgot.refs k]
        split <;> omega
      have hsync₂ : (s₂.inode i).dinode = s₂.disk (s₂.inode i).inum := by
        rw [hgot.disk, hself]
        exact hsync₁
      apply ((h₂.table.wp_iunlockput h₂.live (by rw [hself, hlocked]) fun _ => hsync₂).weaken
        fun _ hf => h₂.stuck hf _).bind
      rintro _ s₃ ⟨hput, hunlocked⟩
      have hrefs (k : Nat) : (s₁.inode k).ref = (s₀.inode k).ref + if k = i then 1 else 0 := by
        rw [← h.refs k]
        by_cases hk : k = i
        · rw [hk, hs.self]
        · rw [hs.other hk]
      obtain ⟨hnext, hinum₃⟩ :=
        h₁.step hgot hput hunlocked hrefs fun hsane => lookup_linked hsane hdir hlookup
      rw [← hinum₃]
      exact ih hnext name'

/-- The pointer that `namex` starts with. -/
theorem Table.walking (h : Table s) (hgot : Got s inum i s') (hlinked : Sane s → Linked s inum) :
    Walking s s' i := by
  refine ⟨⟨h.nonneg, hgot.calm.table, hgot.live, ?_, fun k hk => ?_, hgot.calm.fades, fun hsane => ?_⟩,
    hgot.sole, hgot.refs⟩
  · rw [hgot.refs, if_pos rfl]
    omega
  · have hpos := hk.2
    refine ⟨⟨hk.1, ?_⟩, by rw [hgot.kept k hk]⟩
    rw [hgot.refs]
    split <;> omega
  · rw [hgot.inum]
    exact ⟨hgot.calm.tree, hlinked hsane⟩

/-- The inode that a path starts from. -/
def startInum (s : State) (cwd : Nat) (path : List Byte) : Nat :=
  if path.head? = some slash then ROOTINO else (s.inode cwd).inum

theorem Table.wp_namex (h : Table s) (hcwd : Live s cwd) (nameiparent : Bool) (path : List Byte) :
    Wp (namex cwd nameiparent path) (Stuck s) (fun o s' =>
      o.map (fun r => ((s'.inode r.1).inum, r.2)) =
        expected nameiparent (content s) (startInum s cwd path) [] (components path)) s := by
  have hstart : Wp (if path.head? = some slash then iget ROOTINO else idup cwd)
      (fun e => e = .igetNoInodes) (fun i s' => Got s (startInum s cwd path) i s') s := by
    rw [startInum]
    split
    · exact h.wp_iget ROOTINO
    · exact (h.wp_idup hcwd).weaken fun _ he => he.elim
  apply (hstart.weaken fun _ he _ => .inr he).bind
  intro i s' hgot
  have hw : Walking s s' i := by
    refine h.walking hgot fun hsane => ?_
    rw [startInum]
    split
    · exact hsane.root
    · exact ⟨hsane.typed cwd hcwd, .inr ⟨cwd, hcwd, rfl⟩⟩
  rw [namexLoop_eq, ← hgot.inum]
  exact hw.wp_walkNames nameiparent [] _

/-- Path lookup is looking up the elements of the path, one after another. -/
theorem namei_follows (h : Table s) (hcwd : Live s cwd) (path : List Byte) :
    (∀ parent, namex cwd parent path =
      ((if path.head? = some slash then iget ROOTINO else idup cwd) >>= fun ip =>
        walkNames parent ip [] (components path))) ∧
    Wp (namei cwd path) (Stuck s) (fun o s' =>
      o.map (fun i => (s'.inode i).inum) =
        resolve (content s) (startInum s cwd path) (components path) ∧
      s'.tally = s.tally + heldBy o) s ∧
    Wp (nameiparent cwd path) (Stuck s) (fun o s' =>
      o.map (fun r => ((s'.inode r.1).inum, r.2)) =
        resolveParent (content s) (startInum s cwd path) (components path) ∧
      s'.tally = s.tally + heldBy (o.map Prod.fst)) s := by
  refine ⟨fun parent => ?_, ?_, ?_⟩
  · rw [namex]
    simp only [namexLoop_eq]
  · apply Wp.and _ (shifts_namei cwd path s)
    refine .bind (h.wp_namex hcwd false path) fun o s' ho => ?_
    have hfst := congrArg (Option.map Prod.fst) ho
    simp only [expected, Bool.false_eq_true, if_false, Option.map_map, Function.comp_def, Option.map_id'] at hfst
    rw [wp_pure, Option.map_map, ← hfst]
    rfl
  · exact (h.wp_namex hcwd true path).and (shifts_namex cwd true path s)

/-- A file system whose root has one file `a`, with a process in the root. -/
def smallFs : State where
  inode i := ⟨1, if i = 0 then 1 else 0, false, false, ⟨0, 0, [], []⟩⟩
  log := ⟨30, 0, false, []⟩
  disk inum :=
    if inum = 1 then ⟨T_DIR, 1, [2, 0, 0x61] ++ List.replicate 13 0, []⟩ else ⟨2, 1, [], []⟩
  bitmap _ := false
  inodestart := 32
  bmapstart := 45

theorem smallFs_live : Live smallFs i ↔ i = 0 := by
  constructor
  · rintro ⟨_, href⟩
    by_contra hi
    simp [smallFs, hi] at href
  · intro hi
    rw [hi]
    exact ⟨by decide, by decide⟩

theorem smallFs_table : Table smallFs := by
  refine ⟨fun i => ?_, fun _ _ _ => rfl, fun i j hi hj _ => ?_, fun _ _ _ hv => by cases hv⟩
  · simp only [smallFs]
    split <;> decide
  · rw [smallFs_live.mp hi, smallFs_live.mp hj]

theorem namei_follows_small :
    Wp (namei 0 [slash, 0x61, slash]) (Stuck smallFs) (fun o s' =>
      o.map (fun i => (s'.inode i).inum) = some 2 ∧ s'.tally = smallFs.tally + heldBy o) smallFs := by
  have hresolve : resolve (content smallFs) (startInum smallFs 0 [slash, 0x61, slash])
      (components [slash, 0x61, slash]) = some 2 := by decide
  rw [← hresolve]
  exact (namei_follows smallFs_table (smallFs_live.mpr rfl) [slash, 0x61, slash]).2.1

end PbsCow.Files
