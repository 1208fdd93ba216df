import Xv6Riscv.Dir.Link

/-!
# `create` as small steps

A file or device is allocated, its link count is set to 1, and then its entry is written or the
inode is given back. A directory is written in four places; between them neither its content nor the
counts are right, so `createNew` is computed for it as a whole (`createDir_run`).
-/
namespace Xv6Riscv.Dir
open Simulation Function List

variable {G : Guard} {T : List Nat} {c d e : Cfg} {s s' : Fs} {x dp : Nat} {name : Name}

theorem firstFree_spec (h : s.firstFree = some x) : (x ≠ 0 ∧ x < s.ninodes) ∧ (s.inode x).type = .free := by
  have hp := List.find?_some h
  have hmem := List.mem_of_find?_eq_some h
  simp only [decide_eq_true_eq] at hp
  exact ⟨⟨hp.1, mem_range.1 hmem⟩, hp.2⟩

theorem Base.free_ref (hb : Base T s) (hx : (s.inode x).type = .free) (hT : x ∉ T) : s.ref x = 0 := by
  have howned : ¬ 0 < s.owners x := fun h => hb.owned x h hx
  have hcount := count_eq_zero.2 hT
  have := hb.refs x
  omega

/-- What `create` returns: a held inode, or nothing. -/
def Created (r : Option Nat) (d : Cfg) : Prop :=
  d.pend = [] ∧ match r with
    | none => Base [] d.fs
    | some ip => Base [ip] d.fs ∧ (d.fs.inode ip).type ≠ .free

/-! ## Files and devices -/

variable {ty : IType}

theorem ialloc_sim (hb : Base T c.fs) (hty : ty ≠ .free ∧ ty ≠ .dir) :
    Sim (ghost G) c (ialloc ty c.fs) fun r d => d.pend = c.pend ∧ match r with
      | none => Base T d.fs
      | some x => Base (x :: T) d.fs ∧ (c.fs.inode x).type = .free ∧
          d.fs.inode = update c.fs.inode x ⟨ty, 0, 0, []⟩ := by
  have hrun : ialloc ty c.fs = (match c.fs.firstFree with
      | none => pure none
      | some x => store x ⟨ty, 0, 0, []⟩ >>= fun _ => iget x >>= fun ip => pure (some ip) : M (Option Nat)) c.fs :=
    rfl
  rw [hrun]
  cases hfree : c.fs.firstFree with
  | none => exact Sim.ok rfl ⟨rfl, hb⟩
  | some x =>
    obtain ⟨hx, hxfree⟩ := firstFree_spec hfree
    dsimp only
    rw [store_bind]
    have hstep : Micro G c ⟨c.fs.setInode x ⟨ty, 0, 0, []⟩, c.pend⟩ := .alloc x ty hx.1 hx.2 hxfree hty
    have hb1 : Base T (c.fs.setInode x ⟨ty, 0, 0, []⟩) :=
      hb.setInode (fun _ => hx) (fun h => absurd h hty.1) fun h => absurd h hty.2
    have hnamed : Named (c.fs.setInode x ⟨ty, 0, 0, []⟩) x := by
      refine .inr (.inl ?_)
      rw [Fs.setInode_self]
      exact hty.1
    refine Sim.after (.one hstep) (Sim.bind (iget_sim hb1 hnamed) ?_)
    rintro ip d - ⟨rfl, hk, hb2⟩
    exact Sim.ok rfl ⟨hk.pend, hb2, hxfree, hk.inode⟩

theorem enterNew_file (full : Full) (hty : ty ≠ .dir) :
    enterNew dp name x ty full s = dirlink dp name x full.entry s := by
  unfold enterNew
  rw [if_neg hty]

theorem createFile_sim (major : Int) (full : Full) (hb : Base [dp] c.fs) (hB : c.pend = [])
    (hty : ty ≠ .free ∧ ty ≠ .dir) (hd : (c.fs.inode dp).type = .dir)
    (hg : Succeeds (createNew dp name ty major full) (·.isSome) c.fs → G.enter (c.fs.inode dp).nlink) :
    Sim (ghost G) c (createNew dp name ty major full c.fs) Created := by
  refine Sim.bind (ialloc_sim hb hty) ?_
  rintro r c1 hnew ⟨hB1, hr⟩
  rw [hB] at hB1
  match r, hr with
  | none, hb1 =>
    refine Sim.bind (iunlockput_sim hb1) ?_
    rintro - d - ⟨hq, hbase⟩
    exact Sim.ok rfl ⟨hq.pend.trans hB1, hbase⟩
  | some x, ⟨hb1, hxfree, hinode⟩ =>
    have hne : dp ≠ x := by
      rintro rfl
      rw [hd] at hxfree
      cases hxfree
    refine Sim.bind (ilock_sim hb1 mem_cons_self) ?_
    rintro _ c2 hlock ⟨hk2, hb2, -⟩
    have hx2 : c2.fs.inode x = ⟨ty, 0, 0, []⟩ := by
      rw [hk2.inode, hinode]
      exact update_self _ _ _
    have hdp2 : c2.fs.inode dp = c.fs.inode dp := by
      rw [hk2.inode, hinode]
      exact update_of_ne hne _ _
    have hxt2 : (c2.fs.inode x).type ≠ .free ∧ (c2.fs.inode x).type ≠ .dir := by
      rw [hx2]
      exact hty
    have hB2 : c2.pend = [] := hk2.pend.trans hB1
    rw [show (ghost G).state c2 = c2.fs from rfl, load_bind, store_bind]
    have hup : Micro G c2 ⟨c2.fs.setInode x { (c2.fs.inode x).inc with major := major }, x :: c2.pend⟩ :=
      .inc x major hxt2 (hx2 ▸ G.inc_zero)
    have hone : ({ (c2.fs.inode x).inc with major := major } : Inode) =
        { c2.fs.inode x with major := major, nlink := 1 } := by
      rw [hx2]
      rfl
    rw [hone] at hup
    refine Sim.after (.one hup) ?_
    generalize hi : ({ c2.fs.inode x with major := major, nlink := 1 } : Inode) = i
    have hit : i.type = (c2.fs.inode x).type := by rw [← hi]
    have hil : i.nlink = 1 := by rw [← hi]
    have hb3 : Base [x, dp] (c2.fs.setInode x i) := hb2.relink hxt2 hit
    have hx3 : ((c2.fs.setInode x i).inode x).type ≠ .free ∧ ((c2.fs.setInode x i).inode x).type ≠ .dir := by
      rw [Fs.setInode_self, hit]
      exact hxt2
    have hdp3 : (c2.fs.setInode x i).inode dp = c.fs.inode dp :=
      (Fs.setInode_of_ne _ _ hne).trans hdp2
    have hmade : (∃ s', dirlink dp name x full.entry (c2.fs.setInode x i) = .ok (true, s')) →
        Succeeds (createNew dp name ty major full) (·.isSome) c.fs := by
      rintro ⟨s4, hlink⟩
      obtain ⟨s5, hput⟩ := iput_ok dp s4
      refine ⟨some x, s5, (bind_run hnew).trans ((bind_run hlock).trans ?_), rfl⟩
      rw [show (ghost G).state c2 = c2.fs from rfl, load_bind, store_bind, hi,
        bind_run ((enterNew_file full hty.2).trans hlink), if_pos rfl]
      exact bind_run (m := iunlockput dp) hput
    have hlink := dirlink_sim (G := G) (c := ⟨c2.fs.setInode x i, x :: c2.pend⟩) name full.entry hb3
      (hdp3 ▸ hd) mem_cons_self hx3 fun hlink _ => hdp3 ▸ hg (hmade hlink)
    rw [← enterNew_file full hty.2] at hlink
    refine Sim.bind hlink ?_
    rintro entered c4 - ⟨hb4, hlinked⟩
    cases entered with
    | true =>
      refine Sim.bind (iunlockput_sim hb4.swap) ?_
      rintro - d - ⟨hq5, hb5⟩
      refine Sim.ok rfl ⟨?_, hb5, ?_⟩
      · rw [hq5.pend, hlinked.1, hB2]
        simp
      · rw [hq5.held x mem_cons_self, hlinked.2]
        exact hx3.1
    | false =>
      have hq4 : Quiet [x, dp] ⟨c2.fs.setInode x i, x :: c2.pend⟩ c4 := hlinked
      have hx4 : c4.fs.inode x = i := (hq4.held x mem_cons_self).trans (Fs.setInode_self _ _ _)
      have hpend4 : c4.pend = [x] := hq4.pend.trans (by rw [hB2])
      have hxt4 : (c4.fs.inode x).type ≠ .free ∧ (c4.fs.inode x).type ≠ .dir := by
        rw [hx4, hit]
        exact hxt2
      have hzero : ({ c4.fs.inode x with nlink := 0 } : Inode) = (c4.fs.inode x).dec := by
        rw [hx4, Inode.dec, hil]
        rfl
      rw [if_neg nofun, show (ghost G).state c4 = c4.fs from rfl, load_bind, store_bind, hzero]
      have hdown : Micro G c4 ⟨c4.fs.setInode x (c4.fs.inode x).dec, c4.pend.erase x⟩ :=
        .dec x (hpend4 ▸ mem_cons_self) hxt4
      have hb5 : Base [x, dp] (c4.fs.setInode x (c4.fs.inode x).dec) := hb4.relink hxt4 rfl
      refine Sim.after (.one hdown) (Sim.bind (iunlockput_sim hb5) ?_)
      rintro - c6 - ⟨hq6, hb6⟩
      refine Sim.bind (iunlockput_sim hb6) ?_
      rintro - d - ⟨hq7, hb7⟩
      refine Sim.ok rfl ⟨?_, hb7⟩
      rw [hq7.pend, hq6.pend, hpend4]
      simp

/-! ## Directories -/

theorem iget_fresh (h : s.ref x = 0) :
    iget x s = if s.inUse < NINODE then
      .ok (x, s.setRefs (update s.ref x 1) (update s.valid x false))
    else .error .noInodes := by
  unfold iget
  rw [if_neg (by omega)]
  rfl

theorem addEntry_append {ents more : List Dirent} {a : Dirent} {full : Bool}
    (hall : ∀ b ∈ ents, b.inum ≠ 0) (h : addEntry ents a full = some more) : more = ents ++ [a] := by
  unfold addEntry at h
  have hnone : ents.findIdx? (fun b => b.inum = 0) = none := by
    rw [List.findIdx?_eq_none_iff]
    intro b hb
    simpa using hall b hb
  simp only [hnone] at h
  split at h
  · cases h
  · exact (Option.some.inj h).symm

/-- The entries of a new directory: all three are written, or its inode is left unfinished. -/
theorem enterNew_dir {m : Int} (full : Full) (hne : dp ≠ x) (hx : s.inode x = ⟨.dir, m, 1, []⟩)
    (hx0 : x ≠ 0) (hxlt : x < 2 ^ 16) (hdlt : dp < 2 ^ 16) (hd : (s.inode dp).type = .dir)
    (hslot : slotOf (s.inode dp).ents name = none) :
    (∃ ents, addEntry (s.inode dp).ents ⟨x, name⟩ full.entry = some ents ∧ enterNew dp name x .dir full s = .ok (true,
        (s.setInode x ⟨.dir, m, 1, [⟨x, dot⟩, ⟨dp, dotdot⟩]⟩).setInode dp ((s.inode dp).setEnts ents).inc)) ∨
    ∃ ents, enterNew dp name x .dir full s = .ok (false, s.setInode x ⟨.dir, m, 1, ents⟩) := by
  unfold enterNew
  rw [if_pos rfl]
  have hself : s.setInode x ⟨.dir, m, 1, []⟩ = s := by
    rw [← hx]
    simp [Fs.setInode]
  rcases dirlink_absent x x dot full.dot (by rw [hx]) (by rw [hx]; rfl) hxlt with hdot | ⟨e1, he1, hdot⟩
  · refine .inr ⟨[], ?_⟩
    rw [bind_run hdot, hself]
    rfl
  obtain rfl : e1 = [⟨x, dot⟩] := by
    rw [hx] at he1
    exact addEntry_append (by simp) he1
  rw [hx] at hdot
  simp only [bind_run hdot, if_true]
  -- `".."` goes behind `"."`
  have hx1 : (s.setInode x (Inode.setEnts ⟨.dir, m, 1, []⟩ [⟨x, dot⟩])).inode x = ⟨.dir, m, 1, [⟨x, dot⟩]⟩ :=
    Fs.setInode_self _ _ _
  rcases dirlink_absent x dp dotdot full.dotdot (by rw [hx1]) (by rw [hx1]; simp [slotOf, dot, dotdot]) hdlt with
    hdd | ⟨e2, he2, hdd⟩
  · refine .inr ⟨[⟨x, dot⟩], ?_⟩
    rw [bind_run hdd]
    rfl
  obtain rfl : e2 = [⟨x, dot⟩, ⟨dp, dotdot⟩] := by
    rw [hx1] at he2
    exact addEntry_append (by simpa using hx0) he2
  rw [hx1, Fs.setInode_setInode] at hdd
  simp only [bind_run hdd, if_true]
  have hdp2 : (s.setInode x (Inode.setEnts ⟨.dir, m, 1, [⟨x, dot⟩]⟩ [⟨x, dot⟩, ⟨dp, dotdot⟩])).inode dp =
      s.inode dp := Fs.setInode_of_ne _ _ hne
  rcases dirlink_absent dp x name full.entry (by rw [hdp2]; exact hd) (by rw [hdp2]; exact hslot) hxlt with
    hent | ⟨ents, hents, hent⟩
  · refine .inr ⟨[⟨x, dot⟩, ⟨dp, dotdot⟩], ?_⟩
    rw [bind_run hent]
    rfl
  · rw [hdp2] at hents hent
    refine .inl ⟨ents, hents, ?_⟩
    simp only [bind_run hent, if_true]
    rw [load_bind, store_bind, Fs.setInode_setInode, Fs.setInode_self]
    rfl

/-- The table entry of the new inode `x`, while the call holds it. -/
def Fs.hold (s : Fs) (x : Nat) : Fs :=
  s.setRefs (Function.update s.ref x 1) (Function.update s.valid x true)

theorem Fs.hold_setInode (s : Fs) (x y : Nat) (i : Inode) : (s.hold x).setInode y i = (s.setInode y i).hold x := rfl

theorem unhold_run (i : Inode) (href : s.ref x = 0) (hl : i.nlink = 0) : iunlockput x ((s.setInode x i).hold x) =
      .ok ((), (s.setInode x i.freed).setRefs s.ref (update s.valid x false)) := by
  have hcond : ((s.setInode x i).hold x).ref x = 1 ∧ ((s.setInode x i).hold x).valid x = true ∧
      (((s.setInode x i).hold x).inode x).nlink = 0 := by
    refine ⟨update_self _ _ _, update_self _ _ _, ?_⟩
    show ((s.setInode x i).inode x).nlink = 0
    rwa [Fs.setInode_self]
  unfold iunlockput iput
  rw [if_pos hcond]
  have hzero : update s.ref x 0 = s.ref := by
    rw [← href]
    exact update_eq_self x s.ref
  simp [Fs.hold, Fs.setRefs, Fs.setInode, hzero]

/-- **A new directory, up to the `iput` of its parent.** Either it is complete, or its inode is free
again, or the inode table is full. -/
theorem createDir_run (major : Int) (full : Full) (hfree : s.firstFree = some x) (href : s.ref x = 0)
    (hbound : s.ninodes ≤ 2 ^ 16) (hdlt : dp < s.ninodes) (hd : (s.inode dp).type = .dir)
    (hslot : slotOf (s.inode dp).ents name = none) :
    (∃ ents, addEntry (s.inode dp).ents ⟨x, name⟩ full.entry = some ents ∧
      createNew dp name .dir major full s = (iunlockput dp >>= fun _ => pure (some x) : M (Option Nat))
        (Fs.hold ((s.setInode x ⟨.dir, major, 1, [⟨x, dot⟩, ⟨dp, dotdot⟩]⟩).setInode dp
          ((s.inode dp).setEnts ents).inc) x)) ∨
    (createNew dp name .dir major full s = (iunlockput dp >>= fun _ => pure none : M (Option Nat))
      ((s.setInode x ⟨.free, major, 0, []⟩).setRefs s.ref (update s.valid x false))) ∨
    createNew dp name .dir major full s = .error .noInodes := by
  obtain ⟨⟨hx0, hxlt⟩, hxfree⟩ := firstFree_spec hfree
  have hne : dp ≠ x := by
    rintro rfl
    rw [hd] at hxfree
    cases hxfree
  have halloc : ialloc .dir s =
      (iget x >>= fun ip => pure (some ip) : M (Option Nat)) (s.setInode x ⟨.dir, 0, 0, []⟩) := by
    unfold ialloc
    rw [get_bind, hfree]
    rfl
  have hget := iget_fresh (s := s.setInode x ⟨.dir, 0, 0, []⟩) href
  by_cases htable : (s.setInode x ⟨.dir, 0, 0, []⟩).inUse < NINODE
  · rw [if_pos htable] at hget
    have halloc' : ialloc .dir s = .ok (some x, (s.setInode x ⟨.dir, 0, 0, []⟩).setRefs
        (update s.ref x 1) (update s.valid x false)) := by
      rw [halloc, bind_run hget]
      rfl
    have hlock : ilock x ((s.setInode x ⟨.dir, 0, 0, []⟩).setRefs
        (update s.ref x 1) (update s.valid x false)) =
          .ok ((), (s.setInode x ⟨.dir, 0, 0, []⟩).hold x) := by
      simp [ilock, Fs.setRefs, Fs.hold, Fs.setInode]
    have hrun : createNew dp name .dir major full s = (enterNew dp name x .dir full >>= fun entered =>
        if entered then iunlockput dp >>= fun _ => pure (some x)
        else load x >>= fun i => store x { i with nlink := 0 } >>= fun _ => iunlockput x >>= fun _ =>
          iunlockput dp >>= fun _ => pure none : M (Option Nat))
        ((s.setInode x ⟨.dir, major, 1, []⟩).hold x) := by
      unfold createNew
      rw [bind_run halloc']
      dsimp only
      rw [bind_run hlock, load_bind, store_bind, Fs.hold_setInode, Fs.setInode_setInode]
      have hx : ((s.setInode x ⟨.dir, 0, 0, []⟩).hold x).inode x = ⟨.dir, 0, 0, []⟩ := Fs.setInode_self _ _ _
      rw [hx]
    have hdp : ((s.setInode x ⟨.dir, major, 1, []⟩).hold x).inode dp = s.inode dp := Fs.setInode_of_ne _ _ hne
    rw [hrun]
    rcases enterNew_dir (s := (s.setInode x ⟨.dir, major, 1, []⟩).hold x) (m := major) full hne
      (Fs.setInode_self _ _ _) hx0 (lt_of_lt_of_le hxlt hbound) (lt_of_lt_of_le hdlt hbound)
      (by rw [hdp]; exact hd) (by rw [hdp]; exact hslot) with ⟨ents, hadd, hent⟩ | ⟨ents, hent⟩
    · rw [hdp] at hadd hent
      refine .inl ⟨ents, hadd, ?_⟩
      rw [bind_run hent, Fs.hold_setInode, Fs.hold_setInode, Fs.setInode_setInode]
      rfl
    · refine .inr (.inl ?_)
      rw [bind_run hent, if_neg (by simp), load_bind, store_bind, Fs.setInode_setInode, Fs.setInode_self,
        Fs.hold_setInode, Fs.setInode_setInode, bind_run (unhold_run _ href rfl)]
      rfl
  · rw [if_neg htable] at hget
    refine .inr (.inr ?_)
    have hbind : createNew dp name .dir major full s = (ialloc .dir s).bind fun rs => _ := rfl
    have hibind : (iget x >>= fun ip => pure (some ip) : M (Option Nat)) (s.setInode x ⟨.dir, 0, 0, []⟩) =
      (iget x (s.setInode x ⟨.dir, 0, 0, []⟩)).bind fun rs => _ := rfl
    rw [hbind, halloc, hibind, hget]
    rfl

theorem Base.hold (hb : Base T s) (href : s.ref x = 0) (hx : (s.inode x).type ≠ .free) : Base (x :: T) (s.hold x) := by
  refine hb.reref (hb.count_get (by rw [href])) fun y hy hv => ?_
  by_cases hyx : y = x
  · exact hyx ▸ hx
  · rw [update_of_ne hyx] at hy hv
    exact hb.fresh y hy hv

theorem createDir_sim (major : Int) (full : Full) (hb : Base [dp] c.fs) (hB : c.pend = [])
    (hd : (c.fs.inode dp).type = .dir) (hslot : slotOf (c.fs.inode dp).ents name = none)
    (hg : Succeeds (createNew dp name .dir major full) (·.isSome) c.fs → G.mkdir (c.fs.inode dp).nlink) :
    Sim (ghost G) c (createNew dp name .dir major full c.fs) Created := by
  have hdp := hb.dir hd
  have hok := hb.shape dp hd
  cases hfree : c.fs.firstFree with
  | none =>
    have halloc : ialloc .dir c.fs = .ok (none, c.fs) := by
      have hrun : ialloc .dir c.fs = (match c.fs.firstFree with
        | none => pure none
        | some x => store x ⟨.dir, 0, 0, []⟩ >>= fun _ => iget x >>= fun ip => pure (some ip) : M (Option Nat))
          c.fs := rfl
      rw [hrun, hfree]
      rfl
    unfold createNew
    rw [bind_run halloc]
    refine Sim.bind (iunlockput_sim hb) ?_
    rintro - d - ⟨hq, hbase⟩
    exact Sim.ok rfl ⟨hq.pend.trans hB, hbase⟩
  | some x =>
    obtain ⟨hx, hxfree⟩ := firstFree_spec hfree
    have hne : dp ≠ x := by
      rintro rfl
      rw [hd] at hxfree
      cases hxfree
    have href := hb.free_ref hxfree (by simpa using fun h => hne h.symm)
    rcases createDir_run major full hfree href hb.bound hdp.2 hd hslot with
      ⟨ents, hadd, hrun⟩ | hrun | hrun
    · have hguard := hg <| by
        obtain ⟨s', hput⟩ := iput_ok dp _
        exact ⟨some x, s', hrun.trans (bind_run (m := iunlockput dp) hput), rfl⟩
      obtain ⟨rest, rfl, hrest⟩ := addEntry_extends hdp.1 hok hadd
      have hname := hok.absent hdp.1 hslot
      have hnames : ∀ a ∈ rest, a.inum ≠ 0 → a.name ≠ dot ∧ a.name ≠ dotdot := by
        intro a ha h0
        rcases (hrest.mem_iff h0).1 ha with rfl | ha
        · exact hname
        · exact hok.names a ha h0
      rw [hrun]
      have hmk : Micro G c ⟨_, _⟩ := .mkdir dp x major name rest hx.1 hx.2 hxfree hd hname hrest hguard
      refine Sim.after (.one hmk) ?_
      have hb1 : Base [dp] (c.fs.setInode x ⟨.dir, major, 1, [⟨x, dot⟩, ⟨dp, dotdot⟩]⟩) :=
        hb.setInode (fun _ => hx) nofun fun _ => .replace hdp.1 nofun
      generalize hs2 : (c.fs.setInode x ⟨.dir, major, 1, [⟨x, dot⟩, ⟨dp, dotdot⟩]⟩).setInode dp _ = s2
      have hb2 : Base [dp] s2 := by
        rw [← hs2]
        refine hb1.setInode (fun _ => hdp) (fun h => ?_) fun _ => .replace hok.parent hnames
        have hdirfree : (c.fs.inode dp).type = .free := h
        rw [hd] at hdirfree
        cases hdirfree
      have hx2 : (s2.inode x).type ≠ .free := by
        rw [← hs2, Fs.setInode_of_ne _ _ hne.symm, Fs.setInode_self]
        nofun
      have href2 : s2.ref x = 0 := by
        rw [← hs2]
        exact href
      have hhold : Micro G ⟨s2, c.pend⟩ ⟨s2.hold x, c.pend⟩ := by
        refine .tau rfl rfl ?_
        intro y hy
        by_cases hyx : y = x
        · exact .inr (.inr (.inl (hyx ▸ hx2)))
        · have hother : (s2.hold x).ref y = s2.ref y := update_of_ne hyx _ _
          exact .inl (hother ▸ hy)
      refine Sim.after (.one hhold) (Sim.bind (iunlockput_sim (hb2.hold href2 hx2).swap) ?_)
      rintro - d - ⟨hq, hbase⟩
      refine Sim.ok rfl ⟨hq.pend.trans hB, hbase, ?_⟩
      rw [hq.held x mem_cons_self]
      exact hx2
    · rw [hrun]
      have hscratch : Micro G c ⟨c.fs.setInode x ⟨.free, major, 0, []⟩, c.pend⟩ :=
        .scratch x _ hxfree rfl
      have hb1 : Base [dp] (c.fs.setInode x ⟨.free, major, 0, []⟩) :=
        hb.setInode (fun h => absurd rfl h) (fun _ => href) nofun
      have htau : Micro G ⟨c.fs.setInode x ⟨.free, major, 0, []⟩, c.pend⟩
          ⟨(c.fs.setInode x ⟨.free, major, 0, []⟩).setRefs c.fs.ref (update c.fs.valid x false),
            c.pend⟩ := .tau rfl rfl fun _ hy => .inl hy
      have hb2 : Base [dp] ((c.fs.setInode x ⟨.free, major, 0, []⟩).setRefs c.fs.ref
          (update c.fs.valid x false)) := by
        refine hb1.reref hb1.refs ?_
        intro y hy hv
        refine hb1.fresh y hy ?_
        by_cases hyx : y = x
        · rw [hyx, update_self] at hv
          cases hv
        · rwa [update_of_ne hyx] at hv
      refine Sim.after (.one hscratch) (Sim.after (.one htau) (Sim.bind (iunlockput_sim hb2) ?_))
      rintro - d - ⟨hq, hbase⟩
      exact Sim.ok rfl ⟨hq.pend.trans hB, hbase⟩
    · rw [hrun]
      exact Sim.error trivial

/-! ## `create` -/

theorem create_sim {cwd : Nat} {path : List Char} (major : Int) (full : Full)
    (hb : Base [] c.fs) (hB : c.pend = []) (hcwd : 0 < c.fs.owners cwd) (hty : ty ≠ .free)
    (hg : MayCreate G c.fs cwd path ty major full) : Sim (ghost G) c (create cwd path ty major full c.fs) Created := by
  refine Sim.bind (namex_sim true hb hcwd) ?_
  rintro r c1 hpath ⟨hq1, hfound⟩
  match r, hfound with
  | none, hb1 => exact Sim.ok rfl ⟨hq1.pend.trans hB, hb1⟩
  | some (dp, name), ⟨hb1, hwalk, hdir⟩ =>
    refine Sim.bind (ilock_sim hb1 mem_cons_self) ?_
    rintro _ c2 hlock ⟨hk2, hb2, -⟩
    have hdir2 : (c2.fs.inode dp).type = .dir := hk2.inode ▸ hdir
    refine Sim.bind (dirlookup_sim hb2 hdir2) ?_
    rintro r c3 hentry ⟨hk3, hlook⟩
    have hq3 := hq1.trans ((hk2.trans hk3).quiet [])
    match r, hlook with
    | some (ip, k), hlook =>
      refine Sim.bind (iunlockput_sim hlook.2.2.swap) ?_
      rintro - c4 - ⟨hq4, hb4⟩
      refine Sim.bind (ilock_sim hb4 mem_cons_self) ?_
      rintro - c5 - ⟨hk5, hb5, halloc⟩
      have hB5 : c5.pend = [] := hk5.pend.trans (hq4.pend.trans (hq3.pend.trans hB))
      rw [show (ghost G).state c5 = c5.fs from rfl, load_bind]
      split
      next => exact Sim.ok rfl ⟨hB5, hb5, hk5.inode ▸ halloc⟩
      next =>
        refine Sim.bind (iunlockput_sim hb5) ?_
        rintro - d - ⟨hq, hbase⟩
        exact Sim.ok rfl ⟨hq.pend.trans hB5, hbase⟩
    | none, hlook =>
      have hdir3 : (c3.fs.inode dp).type = .dir := hk3.inode ▸ hdir2
      have hslot3 : slotOf (c3.fs.inode dp).ents name = none := hk3.inode ▸ hlook.1
      have hB3 : c3.pend = [] := hq3.pend.trans hB
      have hguard : Succeeds (createNew dp name ty major full) (·.isSome) c3.fs → G.create ty (c3.fs.inode dp).nlink := by
        rintro ⟨r, s', hnew, hr⟩
        refine MayEnter.guard hg ⟨r, s', ?_, hr⟩ hq3.sameDirs hdir3 hwalk hslot3
        exact (bind_run hpath).trans ((bind_run hlock).trans ((bind_run hentry).trans hnew))
      by_cases htd : ty = .dir
      · subst htd
        exact createDir_sim major full hlook.2 hB3 hdir3 hslot3 hguard
      · rw [Guard.create, if_neg htd] at hguard
        exact createFile_sim major full hlook.2 hB3 ⟨hty, htd⟩ hdir3 hguard

end Xv6Riscv.Dir
