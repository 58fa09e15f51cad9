import PbsCow.InodeView

namespace PbsCow.Files
set_option autoImplicit true

/-- What `iget` and `idup` give: a pointer to the entry of the inode. -/
structure Got (s : State) (inum i : Nat) (s' : State) : Prop where
  calm : Calm s s'
  live : Live s' i
  inum : (s'.inode i).inum = inum
  sole : (s'.inode i).ref = 1 → (s'.inode i).locked = false
  kept : ∀ k, Live s k → s'.inode k = { s.inode k with ref := (s'.inode k).ref }
  refs : ∀ k, (s'.inode k).ref = (s.inode k).ref + if k = i then 1 else 0
  disk : s'.disk = s.disk

theorem Table.got_again (h : Table s) (hi : Live s i)
    (hs : Sets s i { s.inode i with ref := (s.inode i).ref + 1 } s') : Got s (s.inode i).inum i s' := by
  have hpos : 0 < (s.inode i).ref + 1 := by have := hi.2; omega
  refine ⟨h.touch hs hi hpos rfl (h.content_live hi).symm (h.synced i hi) ?_, ?_, ?_, ?_, ?_, ?_, hs.2⟩
  · intro hv hv'
    rw [hv] at hv'
    cases hv'
  · exact ⟨hi.1, by rwa [hs.self]⟩
  · rw [hs.self]
  · intro h1
    rw [hs.self] at h1
    have hlive := hi.2
    simp only at h1
    omega
  · intro k _
    by_cases hk : k = i
    · rw [hk, hs.self]
    · rw [hs.other hk]
  · intro k
    by_cases hk : k = i
    · rw [hk, hs.self, if_pos rfl]
    · rw [hs.other hk, if_neg hk, add_zero]

theorem Table.got_new (h : Table s) (hlt : i < NINODE) (href : (s.inode i).ref = 0)
    (hnone : ∀ k, Live s k → (s.inode k).inum ≠ inum)
    (hs : Sets s i { s.inode i with inum := inum, ref := 1, valid := false } s') : Got s inum i s' := by
  have hdead : ¬ Live s i := fun hl => by have := hl.2; omega
  have hf : Fits s i { s.inode i with inum := inum, ref := 1, valid := false } :=
    ⟨zero_le_one, fun h0 => absurd h0 one_ne_zero, fun _ k _ hl => hnone k hl, fun _ _ hv => by cases hv⟩
  have htree : content s' = content s :=
    h.content_set hs hf (fun _ => (content_other hnone).symm) (fun hl => absurd hl hdead) hlt
  refine ⟨⟨h.set hs hf, htree, fun y hg => hg.set hs fun _ _ => rfl⟩, ?_, ?_, ?_, ?_, ?_, hs.2⟩
  · exact ⟨hlt, by rw [hs.self]; exact zero_lt_one⟩
  · rw [hs.self]
  · intro _
    rw [hs.self]
    exact h.idle i hlt href
  · intro k hl
    have hk : k ≠ i := fun he => hdead (he ▸ hl)
    rw [hs.other hk]
  · intro k
    by_cases hk : k = i
    · rw [hk, hs.self, if_pos rfl, href]
      rfl
    · rw [hs.other hk, if_neg hk, add_zero]

theorem Table.wp_iget (h : Table s) (inum : Nat) :
    Wp (iget inum) (fun e => e = .igetNoInodes) (Got s inum) s := by
  rw [iget, wp_bind, wp_get]
  split
  · next i hi =>
    have he : entry s inum = some i := hi
    obtain ⟨hl, rfl⟩ := entry_some he
    exact h.got_again hl ⟨rfl, rfl⟩
  · next hnone =>
    split
    · exact rfl
    · next i hi =>
      have href : (s.inode i).ref = 0 := by simpa using List.find?_some hi
      have hlt := List.mem_range.mp (List.mem_of_find?_eq_some hi)
      exact h.got_new hlt href (fun _ hk => entry_none hnone hk) ⟨rfl, rfl⟩

theorem Table.wp_idup (h : Table s) (hi : Live s i) :
    Wp (idup i) NoError (Got s (s.inode i).inum) s := h.got_again hi ⟨rfl, rfl⟩

theorem Table.wp_ilock (h : Table s) (hi : Live s i) :
    Wp (ilock i) (fun e => e = .waits ∨ (content s (s.inode i).inum).type = 0) (fun _ s' => Calm s s' ∧
      Sets s i { s.inode i with locked := true, valid := true, dinode := content s (s.inode i).inum } s' ∧
      content s (s.inode i).inum = s.disk (s.inode i).inum ∧ ¬ Gone s (s.inode i).inum) s := by
  have hc := h.content_live hi
  rw [ilock, wp_bind, wp_get]
  refine .ite (fun hlt => absurd hi.2 (by omega)) fun _ => .ite (fun _ => .inl rfl) fun hunlocked => ?_
  have hunlocked : (s.inode i).locked = false := by simpa using hunlocked
  have hdone {s' : State} (hs : Sets s i { s.inode i with
      locked := true, valid := true, dinode := content s (s.inode i).inum } s')
      (ht : (s.inode i).valid = false → (s.disk (s.inode i).inum).type ≠ 0) : Calm s s' :=
    h.touch hs hi hi.2 rfl rfl (fun hl => by cases hl) fun _ => ht
  cases hv : (s.inode i).valid with
  | true =>
    have hsync := h.synced i hi hunlocked hv
    have hcont : content s (s.inode i).inum = (s.inode i).dinode := by rw [hc, shown, if_pos hv]
    have hset (s' : State) (hs : s'.inode = Function.update s.inode i { s.inode i with locked := true })
        (hd : s'.disk = s.disk) : Sets s i { s.inode i with
          locked := true, valid := true, dinode := content s (s.inode i).inum } s' := by
      refine ⟨?_, hd⟩
      rw [hs, hcont, ← hv]
    refine ⟨hdone (hset _ rfl rfl) ?_, hset _ rfl rfl, hcont.trans hsync, fun hg => ?_⟩
    · rw [hv]
      exact fun h0 => by cases h0
    · have hv' := hg.2 i hi rfl
      rw [hv] at hv'
      cases hv'
  | false =>
    have hcont : content s (s.inode i).inum = s.disk (s.inode i).inum := by rw [hc, shown, hv]; rfl
    simp only [Bool.not_false, if_true, setInode, wp_bind, wp_modify]
    refine .ite (fun h0 => .inr (by rw [hcont]; exact h0)) fun h0 => ?_
    refine ⟨hdone ⟨?_, ?_⟩ fun _ => h0, ⟨?_, ?_⟩, hcont, fun hg => h0 hg.1⟩
    all_goals simp only [Function.update_idem, Function.update_self, hcont]

theorem Table.wp_iunlock (h : Table s) (hi : Live s i) (hlock : (s.inode i).locked)
    (hsync : (s.inode i).valid → (s.inode i).dinode = s.disk (s.inode i).inum) :
    Wp (iunlock i) NoError (fun _ s' => Calm s s' ∧ Sets s i { s.inode i with locked := false } s') s := by
  rw [iunlock, wp_bind, wp_get]
  have hpos := hi.2
  refine .ite (fun hbad => absurd hbad (by simp [hlock]; omega)) fun _ => ⟨?_, rfl, rfl⟩
  refine h.touch ⟨rfl, rfl⟩ hi hpos rfl (h.content_live hi).symm (fun _ => hsync) ?_
  intro hv hv'
  rw [hv] at hv'
  cases hv'

/-- `iput` frees the inode. -/
def Frees (s : State) (i : Nat) : Prop :=
  (s.inode i).ref = 1 ∧ (s.inode i).valid ∧ (s.inode i).dinode.nlink = 0

/-- What `iput` leaves: nothing but the entry, and of the tree nothing but an inode that it frees. -/
structure Put (s : State) (i : Nat) (s' : State) : Prop where
  table : Table s'
  fades : Fades s s'
  tree : ¬ Frees s i → content s' = content s
  other : ∀ k, k ≠ i → s'.inode k = s.inode k
  inum : (s'.inode i).inum = (s.inode i).inum
  locked : (s.inode i).locked = false → (s'.inode i).locked = false
  ref : (s'.inode i).ref = (s.inode i).ref - 1

theorem Table.put_back (h : Table s) (hi : Live s i) (hsole : (s.inode i).ref = 1 → (s.inode i).locked = false)
    (hs : Sets s i { s.inode i with ref := (s.inode i).ref - 1 } s') : Put s i s' := by
  have hpos := hi.2
  have hf : Fits s i { s.inode i with ref := (s.inode i).ref - 1 } := by
    refine ⟨by dsimp only; omega, fun h0 => hsole (by dsimp only at h0; omega), ?_, fun _ => h.synced i hi⟩
    exact fun _ j hj hl he => hj (h.distinct j i hl hi he)
  have htree : content s' = content s := by
    apply h.content_set hs hf (fun _ => (h.content_live hi).symm) _ hi.1
    intro _ hor
    rcases hor with h0 | hne
    · have h1 : (s.inode i).ref = 1 := by dsimp only at h0; omega
      rw [h.content_live hi, shown]
      split
      · next hv => exact (h.synced i hi (hsole h1) hv).symm
      · rfl
    · exact absurd rfl hne
  refine ⟨h.set hs hf, .of_eq htree fun y hg => hg.set hs fun _ he => hg.2 i hi he, fun _ => htree,
    fun k hk => hs.other hk, ?_, ?_, ?_⟩
  · rw [hs.self]
  · rw [hs.self]
    exact id
  · rw [hs.self]

/-- The inode of an entry that is given up is freed on disk. -/
theorem Table.put_freed (h : Table s) (hi : Live s i) (href : (s.inode i).ref = 1)
    (hfrees : Frees s i) (hother : ∀ k, k ≠ i → s'.inode k = s.inode k)
    (hinum : (s'.inode i).inum = (s.inode i).inum) (href' : (s'.inode i).ref = 0)
    (hlock : (s'.inode i).locked = false) (hdisk : ∀ y, y ≠ (s.inode i).inum → s'.disk y = s.disk y)
    (htype : (s'.disk (s.inode i).inum).type = 0) : Put s i s' := by
  have hlive {k : Nat} : Live s' k ↔ k ≠ i ∧ Live s k := by
    by_cases hk : k = i
    · simp [hk, Live, href']
    · simp [Live, hother k hk, hk]
  have hne {k : Nat} (hl : Live s' k) : (s.inode k).inum ≠ (s.inode i).inum := fun he =>
    (hlive.mp hl).1 (h.distinct k i (hlive.mp hl).2 hi he)
  have htab : Table s' := by
    constructor
    · intro k
      by_cases hk : k = i
      · rw [hk, href']
      · rw [hother k hk]
        exact h.nonneg k
    · intro k hlt h0
      by_cases hk : k = i
      · rw [hk, hlock]
      · rw [hother k hk] at h0 ⊢
        exact h.idle k hlt h0
    · intro k j hk hj he
      rw [hother k (hlive.mp hk).1, hother j (hlive.mp hj).1] at he
      exact h.distinct k j (hlive.mp hk).2 (hlive.mp hj).2 he
    · intro k hk hunlocked hv
      have hd := hdisk _ (hne hk)
      rw [hother k (hlive.mp hk).1] at hunlocked hv ⊢
      rw [hd]
      exact h.synced k (hlive.mp hk).2 hunlocked hv
  have hgone : Gone s' (s.inode i).inum := by
    refine ⟨htype, fun k hk he => ?_⟩
    rw [hother k (hlive.mp hk).1] at he
    exact absurd he (hne hk)
  have hsame {y : Nat} (hy : y ≠ (s.inode i).inum) : content s' y = content s y := by
    by_cases hl : ∃ k, Live s k ∧ (s.inode k).inum = y
    · obtain ⟨k, hk, rfl⟩ := hl
      have hki : k ≠ i := fun he => hy (by rw [he])
      have hk' := hlive.mpr ⟨hki, hk⟩
      have hc := htab.content_live hk'
      rw [hother k hki, shown, hdisk _ hy] at hc
      rw [hc, h.content_live hk, shown]
    · rw [content_other, content_other, hdisk y hy]
      · exact fun k hk he => hl ⟨k, hk, he⟩
      · intro k hk he
        rw [hother k (hlive.mp hk).1] at he
        exact hl ⟨k, (hlive.mp hk).2, he⟩
  refine ⟨htab, fun y => ?_, fun hn => absurd hfrees hn, hother, hinum, fun _ => hlock, by rw [href', href]; rfl⟩
  by_cases hy : y = (s.inode i).inum
  · rw [hy]
    exact ⟨.inr hgone, fun _ => hgone⟩
  · refine ⟨.inl (hsame hy), fun hg => ⟨by rw [hdisk y hy]; exact hg.1, fun k hk he => ?_⟩⟩
    rw [hother k (hlive.mp hk).1] at he ⊢
    exact hg.2 k (hlive.mp hk).2 he

theorem wp_onLog (x : Log.Sys α) (s : State) :
    Wp (onLog x) AnyError (fun _ s' => s'.inode = s.inode ∧ s'.disk = s.disk) s := by
  rw [onLog, wp_embed]
  exact (Wp.of_forall fun _ _ => ⟨rfl, rfl⟩).weaken fun _ _ => trivial

theorem wp_iupdate (i : Nat) (s : State) :
    Wp (iupdate i) AnyError (fun _ s' => s'.inode = s.inode ∧
      s'.disk = Function.update s.disk (s.inode i).inum (s.inode i).dinode) s := by
  rw [iupdate]
  simp only [wp_bind, wp_get, wp_modify]
  exact wp_onLog _ _

theorem wp_bfreeAll (blocks : List Nat) (s : State) :
    Wp (bfreeAll blocks) AnyError (fun _ s' => s'.inode = s.inode ∧ s'.disk = s.disk) s := by
  induction blocks generalizing s with
  | nil => exact ⟨rfl, rfl⟩
  | cons b blocks ih =>
    have hfree : Wp (bfree b) AnyError (fun _ s' => s'.inode = s.inode ∧ s'.disk = s.disk) s := by
      rw [bfree, wp_bind, wp_get]
      exact .ite (fun _ => trivial) fun _ => wp_onLog _ _
    apply hfree.bind
    intro _ s' h
    apply (ih s').mono
    rintro _ s'' ⟨h', hd'⟩
    exact ⟨h'.trans h.1, hd'.trans h.2⟩

/-- Only the copy in entry `i` and its inode on disk have changed. -/
structure Only (s : State) (i : Nat) (t : State) : Prop where
  other : ∀ k, k ≠ i → t.inode k = s.inode k
  inum : (t.inode i).inum = (s.inode i).inum
  ref : (t.inode i).ref = (s.inode i).ref
  disk : ∀ y, y ≠ (s.inode i).inum → t.disk y = s.disk y

theorem Only.wp_setInode {f : Inode → Inode} (h : Only s i t) (hinum : ∀ ip, (f ip).inum = ip.inum)
    (href : ∀ ip, (f ip).ref = ip.ref) :
    Wp (setInode i f) AnyError (fun _ t' => Only s i t' ∧ t'.inode i = f (t.inode i) ∧ t'.disk = t.disk) t := by
  refine ⟨⟨fun k hk => ?_, ?_, ?_, h.disk⟩, Function.update_self .., rfl⟩
  · exact (Function.update_of_ne hk _ _).trans (h.other k hk)
  · simp only [Function.update_self, hinum, h.inum]
  · simp only [Function.update_self, href, h.ref]

theorem Only.wp_iupdate (h : Only s i t) :
    Wp (iupdate i) AnyError (fun _ t' => Only s i t' ∧ t'.inode = t.inode ∧
      t'.disk (s.inode i).inum = (t.inode i).dinode) t := by
  apply (PbsCow.Files.wp_iupdate i t).mono
  rintro _ t' ⟨hinode, hdisk⟩
  refine ⟨⟨?_, ?_, ?_, ?_⟩, hinode, ?_⟩
  · rw [hinode]
    exact h.other
  · rw [hinode, h.inum]
  · rw [hinode, h.ref]
  · intro y hy
    rw [hdisk, h.inum, Function.update_of_ne hy]
    exact h.disk y hy
  · rw [hdisk, h.inum, Function.update_self]

theorem Only.wp_itrunc (h : Only s i t) : Wp (itrunc i) AnyError (fun _ t' => Only s i t') t := by
  rw [itrunc, wp_bind, wp_get]
  apply (wp_bfreeAll _ t).bind
  rintro _ t₁ ⟨hinode, hdisk⟩
  have h₁ : Only s i t₁ := by
    constructor
    · rw [hinode]
      exact h.other
    · rw [hinode, h.inum]
    · rw [hinode, h.ref]
    · rw [hdisk]
      exact h.disk
  refine .bind (h₁.wp_setInode (fun _ => rfl) fun _ => rfl) ?_
  rintro _ t₂ ⟨h₂, _⟩
  exact h₂.wp_iupdate.mono fun _ _ h => h.1

theorem Table.wp_iput (h : Table s) (hi : Live s i) (hsole : (s.inode i).ref = 1 → (s.inode i).locked = false) :
    Wp (iput i) (fun _ => Frees s i) (fun _ s' => Put s i s') s := by
  rw [iput, wp_bind, wp_get]
  refine .ite (fun hfrees => ?_) fun hkeeps => h.put_back hi hsole ⟨rfl, rfl⟩
  refine .ite (fun _ => hfrees) fun _ => Wp.weaken (E := AnyError) ?_ fun _ _ => hfrees
  dsimp only
  have hself : Only s i s := ⟨fun _ _ => rfl, rfl, rfl, fun _ _ => rfl⟩
  refine .bind (hself.wp_setInode (fun _ => rfl) fun _ => rfl) ?_
  rintro _ t₁ ⟨h₁, _⟩
  apply h₁.wp_itrunc.bind
  intro _ t₂ h₂
  refine .bind (h₂.wp_setInode (fun _ => rfl) fun _ => rfl) ?_
  rintro _ t₃ ⟨h₃, htype, _⟩
  apply h₃.wp_iupdate.bind
  rintro _ t₄ ⟨h₄, hinode, hdisk⟩
  refine .bind (h₄.wp_setInode (fun _ => rfl) fun _ => rfl) ?_
  rintro _ t₅ ⟨h₅, hip, hdisk₅⟩
  rw [setInode, wp_modify]
  apply h.put_freed hi hfrees.1 hfrees
  · intro k hk
    exact (Function.update_of_ne hk _ _).trans (h₅.other k hk)
  · simp only [Function.update_self, h₅.inum]
  · simp only [Function.update_self, h₅.ref, hfrees.1, sub_self]
  · simp only [Function.update_self, hip]
  · exact h₅.disk
  · simp only [hdisk₅, hdisk, htype]

theorem Table.wp_iunlockput (h : Table s) (hi : Live s i) (hlock : (s.inode i).locked)
    (hsync : (s.inode i).valid → (s.inode i).dinode = s.disk (s.inode i).inum) :
    Wp (iunlockput i) (fun _ => Frees s i)
      (fun _ s' => Put s i s' ∧ (s'.inode i).locked = false) s := by
  apply ((h.wp_iunlock hi hlock hsync).weaken fun _ he => he.elim).bind
  rintro _ s₁ ⟨hcalm, hs⟩
  have hi₁ : Live s₁ i := ⟨hi.1, by rw [hs.self]; exact hi.2⟩
  have hfrees : Frees s₁ i ↔ Frees s i := by rw [Frees, Frees, hs.self]
  have hunlocked : (s₁.inode i).locked = false := by rw [hs.self]
  apply ((hcalm.table.wp_iput hi₁ fun _ => hunlocked).weaken fun _ he => hfrees.mp he).mono
  intro _ s' hput
  refine ⟨⟨hput.table, hcalm.fades.trans hput.fades, fun hn => ?_, fun k hk => ?_, ?_, ?_, ?_⟩, hput.locked hunlocked⟩
  · rw [hput.tree (mt hfrees.mp hn), hcalm.tree]
  · rw [hput.other k hk, hs.other hk]
  · rw [hput.inum, hs.self]
  · exact fun _ => hput.locked hunlocked
  · rw [hput.ref, hs.self]

theorem Table.wp_dirlookup (h : Table s) (hd : (s.inode i).dinode.type = T_DIR) (name : List Byte) :
    Wp (dirlookup i name) (fun e => e = .igetNoInodes ∨ ∃ de, de ∈ dirents (s.inode i).dinode.data ∧
      de.length ≠ direntSize) (fun o s' => match o with
        | none => lookup (s.inode i).dinode name = none ∧ s' = s
        | some r => ∃ inum, lookup (s.inode i).dinode name = some inum ∧ Got s inum r.1 s') s := by
  have hloop (n off : Nat) : Wp (dirlookupLoop i name n off) (fun e => e = .igetNoInodes ∨
      ∃ de, de ∈ direntsFrom (s.inode i).dinode.data n off ∧ de.length ≠ direntSize) (fun o s' =>
        let found := ((direntsFrom (s.inode i).dinode.data n off).find? fun de =>
          direntInum de ≠ 0 ∧ direntName de = name).map direntInum
        match o with
        | none => found = none ∧ s' = s
        | some r => ∃ inum, found = some inum ∧ Got s inum r.1 s') s := by
    induction n generalizing off with
    | zero => exact ⟨rfl, rfl⟩
    | succ n ih =>
      rw [dirlookupLoop, wp_bind, wp_get]
      refine .ite (fun hlen => .inr ⟨_, List.mem_cons_self, hlen⟩) fun _ => ?_
      simp only [direntsFrom]
      refine .ite (fun hfound => ?_) fun hnot => ?_
      · apply ((h.wp_iget _).weaken fun _ he => .inl he).bind
        intro j s' hgot
        rw [List.find?_cons_of_pos (by simpa using hfound)]
        exact ⟨_, rfl, hgot⟩
      · rw [List.find?_cons_of_neg (by simpa using hnot)]
        apply (ih _).weaken
        rintro e (he | ⟨de, hde, hlen⟩)
        · exact .inl he
        · exact .inr ⟨de, List.mem_cons_of_mem _ hde, hlen⟩
  rw [dirlookup, wp_bind, wp_get]
  exact .ite (fun hne => absurd hd hne) fun _ => hloop _ _

end PbsCow.Files
