import Xv6Riscv.Dir.Lookup

/-!
# `link` and `unlink` as small steps

The guards of the small steps come from `Allowed`, which speaks about the state before the call: which
directory a path leads to is resolved there.
-/
namespace Xv6Riscv.Dir
open Simulation Function List

variable {G : Guard} {T : List Nat} {c d e : Cfg} {s s' : Fs} {x : Nat}

/-! ## Conditions on a call -/

/-- The call returns a value that `ok` accepts. -/
def Succeeds {α : Type} (m : M α) (ok : α → Prop) (s : Fs) : Prop := ∃ a s', m s = .ok (a, s') ∧ ok a

/-- The entry that a call makes at `path` goes into a directory whose link count `g` accepts. -/
def MayEnter (g : BitVec 16 → Prop) (s : Fs) (cwd : Nat) (path : List Char) (made : Prop) : Prop :=
  made → ∀ dp name, resolveParent s cwd path = some (dp, name) → lookup s dp name = none → g (s.inode dp).nlink

/-- What `create` of a `ty` asks of the parent's link count. -/
def Guard.create (G : Guard) (ty : IType) : BitVec 16 → Prop := if ty = .dir then G.mkdir else G.enter

/-- `create` makes entries only where `G` accepts them. -/
def MayCreate (G : Guard) (s : Fs) (cwd : Nat) (path : List Char) (ty : IType) (major : Int) (full : Full) : Prop :=
  MayEnter (G.create ty) s cwd path (Succeeds (create cwd path ty major full) (·.isSome) s)

/-- The condition `G` of the small steps, as a condition on a call in the state it is made in. -/
def Allowed (G : Guard) (s : Fs) (e : Nat × Call) : Prop :=
  ∀ cwd, s.cwd e.1 = some cwd →
    match e.2 with
    | .open path omode full => omode &&& O_CREATE ≠ 0 → MayCreate G s cwd path .file 0 full
    | .mknod path major full => MayCreate G s cwd path .device major full
    | .mkdir path full => MayCreate G s cwd path .dir 0 full
    | .link old new full =>
      (∀ x, resolve s cwd old = some x → (s.inode x).type ≠ .dir → G.inc (s.inode x).nlink) ∧
        MayEnter G.enter s cwd new (Succeeds (sysLink cwd old new full) (· = 0) s)
    | .unlink path => G.childless → Succeeds (sysUnlink cwd path) (· = 0) s → ∀ dp name x,
        resolveParent s cwd path = some (dp, name) → lookup s dp name = some x → (s.inode x).type = .dir → Childless s x
    | _ => True

variable {cwd dp ip : Nat} {path new : List Char}

theorem MayEnter.guard {g : BitVec 16 → Prop} {made : Prop} {name : Name}
    (h : MayEnter g s cwd path made) (hmade : made) (hsame : SameDirs s s') (hd : (s'.inode dp).type = .dir)
    (hres : resolveParent s cwd path = some (dp, name)) (hslot : slotOf (s'.inode dp).ents name = none) :
    g (s'.inode dp).nlink := by
  have hdp := hsame dp hd
  rw [← hdp] at hd hslot ⊢
  refine h hmade dp name hres ?_
  rw [lookup, if_pos hd, hslot]
  rfl

theorem iput_ok (x : Nat) (s : Fs) : ∃ s', iput x s = .ok ((), s') := by
  unfold iput
  split <;> exact ⟨_, rfl⟩

/-! ## `dirlink` -/

theorem dirlink_absent (dp inum : Nat) (name : Name) (full : Bool) (hd : (s.inode dp).type = .dir)
    (hslot : slotOf (s.inode dp).ents name = none) (hlt : inum < 2 ^ 16) :
    dirlink dp name inum full s = .ok (false, s) ∨ ∃ ents, addEntry (s.inode dp).ents ⟨inum, name⟩ full = some ents ∧
      dirlink dp name inum full s = .ok (true, s.setInode dp ((s.inode dp).setEnts ents)) := by
  have hlook : dirlookup dp name s = .ok (none, s) := by
    unfold dirlookup
    rw [load_bind, if_neg (not_not.2 hd), hslot]
    rfl
  unfold dirlink
  rw [bind_run hlook]
  dsimp only
  rw [load_bind, Nat.mod_eq_of_lt hlt]
  cases addEntry (s.inode dp).ents ⟨inum, name⟩ full with
  | none => exact .inl rfl
  | some ents => exact .inr ⟨ents, rfl, rfl⟩

/-- `dirlink` of a file or device whose link count was raised: the entry is written and accounted
for, or nothing but references changed. -/
def Linked (T : List Nat) (c : Cfg) (x : Nat) (linked : Bool) (d : Cfg) : Prop :=
  Base T d.fs ∧ if linked then d.pend = c.pend.erase x ∧ d.fs.inode x = c.fs.inode x else Quiet T c d

theorem dirlink_sim (name : Name) (full : Bool) (hb : Base T c.fs)
    (hd : (c.fs.inode dp).type = .dir) (hB : x ∈ c.pend) (hx : (c.fs.inode x).type ≠ .free ∧ (c.fs.inode x).type ≠ .dir)
    (hg : (∃ s', dirlink dp name x full c.fs = .ok (true, s')) → slotOf (c.fs.inode dp).ents name = none →
      G.enter (c.fs.inode dp).nlink) :
    Sim (ghost G) c (dirlink dp name x full c.fs) (Linked T c x) := by
  have hdp := hb.dir hd
  have hok := hb.shape dp hd
  cases hslot : slotOf (c.fs.inode dp).ents name with
  | some k =>
    -- the name is taken: the reference to its inode is taken and dropped
    refine Sim.bind (dirlookup_sim hb hd) ?_
    rintro r c1 - ⟨hk, hlook⟩
    match r, hlook with
    | none, hlook => exact absurd (hslot.symm.trans hlook.1) nofun
    | some (ip, j), hlook =>
      refine Sim.bind (iput_sim hlook.2.2) ?_
      rintro - d - ⟨hquiet, hbase⟩
      exact Sim.ok rfl ⟨hbase, (hk.quiet T).trans hquiet⟩
  | none =>
    obtain ⟨hx0, hxlt⟩ := hb.range x hx.1
    rcases dirlink_absent dp x name full hd hslot (lt_of_lt_of_le hxlt hb.bound) with
      hrun | ⟨ents, hadd, hrun⟩
    · rw [hrun]
      exact Sim.ok rfl ⟨hb, (Kept.refl c).quiet T⟩
    have hguard := hg ⟨_, hrun⟩ hslot
    rw [hrun]
    obtain ⟨rest, rfl, hrest⟩ := addEntry_extends hdp.1 hok hadd
    have hname := hok.absent hdp.1 hslot
    have hstep : Micro G c ⟨_, _⟩ := Micro.enter dp x name rest hB hd hx hx0 hname hrest hguard
    have hne : x ≠ dp := by rintro rfl; exact hx.2 hd
    refine Sim.ok_step hstep rfl ⟨?_, rfl, Fs.setInode_of_ne _ _ hne⟩
    refine hb.setInode (fun _ => hdp) (fun h => ?_) fun _ => .replace hok.parent ?_
    · have hfree : (c.fs.inode dp).type = .free := h
      rw [hd] at hfree
      cases hfree
    · intro e he hne
      rcases (hrest.mem_iff hne).1 he with rfl | he
      · exact hname
      · exact hok.names e he hne

/-! ## `sys_link` -/

theorem linkInto_sim {full : Bool} (hb : Base [x] c.fs)
    (hcwd : 0 < c.fs.owners cwd) (hB : x ∈ c.pend) (hx : (c.fs.inode x).type ≠ .free ∧ (c.fs.inode x).type ≠ .dir)
    (hg : (∃ s', linkInto cwd new x full c.fs = .ok (true, s')) → ∀ dp name,
      resolveParent c.fs cwd new = some (dp, name) → (c.fs.inode dp).type = .dir →
      slotOf (c.fs.inode dp).ents name = none → G.enter (c.fs.inode dp).nlink) :
    Sim (ghost G) c (linkInto cwd new x full c.fs) (Linked [x] c x) := by
  refine Sim.bind (namex_sim true hb hcwd) ?_
  rintro r c1 hname ⟨hq1, hfound⟩
  match r, hfound with
  | none, hb1 => exact Sim.ok rfl ⟨hb1, hq1⟩
  | some (dp, name), ⟨hb1, hwalk, hdir⟩ =>
    refine Sim.bind (ilock_sim hb1 mem_cons_self) ?_
    rintro _ c2 hlock ⟨hk2, hb2, -⟩
    have hmade : (∃ s', dirlink dp name x full c2.fs = .ok (true, s')) →
        ∃ s', linkInto cwd new x full c.fs = .ok (true, s') := by
      rintro ⟨s3, hlink⟩
      obtain ⟨s4, hput⟩ := iput_ok dp s3
      refine ⟨s4, (bind_run hname).trans ((bind_run hlock).trans ((bind_run hlink).trans ?_))⟩
      exact bind_run (m := iunlockput dp) hput
    have hq2 := hq1.trans (hk2.quiet [x])
    have hdir2 : (c2.fs.inode dp).type = .dir := hk2.inode ▸ hdir
    have hdp : c.fs.inode dp = c2.fs.inode dp := hq2.sameDirs dp hdir2
    have hx2 := hq2.held x mem_cons_self
    refine Sim.bind (dirlink_sim name full hb2 hdir2 (hq2.pend ▸ hB) (hx2 ▸ hx)
      fun hlink hslot => hdp ▸ hg (hmade hlink) dp name hwalk (hdp ▸ hdir2) (hdp ▸ hslot)) ?_
    rintro linked c3 - ⟨hb3, hlinked⟩
    refine Sim.bind (iunlockput_sim hb3) ?_
    rintro - d - ⟨hq4, hb4⟩
    refine Sim.ok rfl ⟨hb4, ?_⟩
    cases linked with
    | true =>
      refine ⟨?_, ?_⟩
      · rw [hq4.pend, hlinked.1, hq2.pend]
      · rw [hq4.held x mem_cons_self, hlinked.2, hx2]
    | false =>
      have hq3 : Quiet [x] c2 c3 := hlinked.mono fun y hy => mem_cons_of_mem _ hy
      exact hq2.trans (hq3.trans hq4)

/-- Between calls: no local references, no link count ahead of its entry. -/
def Idle (d : Cfg) : Prop := Base [] d.fs ∧ d.pend = []

theorem iput_idle_sim (hb : Base [x] c.fs) (hB : c.pend = []) (r : Int) :
    Sim (ghost G) c ((iput x >>= fun _ => pure r : M Int) c.fs) fun _ d => Idle d := by
  refine Sim.bind (iput_sim hb) ?_
  rintro - d - ⟨hq, hbase⟩
  exact Sim.ok rfl ⟨hbase, hq.pend.trans hB⟩

theorem Base.relink {i : Inode} (hb : Base T s) (hx : (s.inode x).type ≠ .free ∧ (s.inode x).type ≠ .dir)
    (hi : i.type = (s.inode x).type) : Base T (s.setInode x i) :=
  hb.setInode (fun _ => hb.range x hx.1) (fun h => absurd (hi ▸ h) hx.1) fun h => absurd (hi ▸ h) hx.2

theorem sysLink_sim {old : List Char} {full : Bool} (hb : Base [] c.fs) (hB : c.pend = [])
    (hcwd : 0 < c.fs.owners cwd)
    (hinc : ∀ x, resolve c.fs cwd old = some x → (c.fs.inode x).type ≠ .dir → G.inc (c.fs.inode x).nlink)
    (henter : MayEnter G.enter c.fs cwd new (Succeeds (sysLink cwd old new full) (· = 0) c.fs)) :
    Sim (ghost G) c (sysLink cwd old new full c.fs) fun _ d => Idle d := by
  refine Sim.bind (namex_sim false hb hcwd) ?_
  rintro r c1 hname ⟨hq1, hfound⟩
  match r, hfound with
  | none, hb1 => exact Sim.ok rfl ⟨hb1, hq1.pend.trans hB⟩
  | some (ip, _), ⟨hb1, hwalk⟩ =>
    refine Sim.bind (ilock_sim hb1 mem_cons_self) ?_
    rintro _ c2 hlock ⟨hk2, hb2, halloc⟩
    have hq2 := hq1.trans (hk2.quiet [])
    have hB2 : c2.pend = [] := hq2.pend.trans hB
    rw [show (ghost G).state c2 = c2.fs from rfl, load_bind]
    split
    next => exact iput_idle_sim hb2 hB2 _
    next hdir =>
      have hip : (c2.fs.inode ip).type ≠ .free ∧ (c2.fs.inode ip).type ≠ .dir :=
        ⟨hk2.inode ▸ halloc, hdir⟩
      have hsame : c2.fs.inode ip = c.fs.inode ip := hq2.alloc hip.1
      rw [store_bind]
      -- the count is ahead of the entry while `new` is looked up
      have hup : Micro G c2 ⟨c2.fs.setInode ip (c2.fs.inode ip).inc, ip :: c2.pend⟩ :=
        .inc ip (c2.fs.inode ip).major hip (hsame ▸ hinc ip hwalk (hsame ▸ hdir))
      refine Sim.after (.one hup) ?_
      generalize hc3 : (⟨c2.fs.setInode ip (c2.fs.inode ip).inc, ip :: c2.pend⟩ : Cfg) = c3
      have hfs3 : c3.fs = c2.fs.setInode ip (c2.fs.inode ip).inc := by rw [← hc3]
      have hpend3 : c3.pend = [ip] := by rw [← hc3, hB2]
      have hb3 : Base [ip] c3.fs := hfs3 ▸ hb2.relink hip rfl
      have hself : c3.fs.inode ip = (c2.fs.inode ip).inc := by
        rw [hfs3]
        exact update_self _ _ _
      have hip3 : (c3.fs.inode ip).type ≠ .free ∧ (c3.fs.inode ip).type ≠ .dir := by
        rw [hself]
        exact hip
      have hsame3 : SameDirs c.fs c3.fs := by
        refine hq2.sameDirs.trans ?_
        intro y hy
        have hne : y ≠ ip := by rintro rfl; exact hip3.2 hy
        rw [hfs3]
        exact (update_of_ne hne _ _).symm
      have howner3 : 0 < c3.fs.owners cwd := by
        have howner2 := hq2.owners cwd
        rw [hfs3]
        show 0 < c2.fs.owners cwd
        rwa [howner2]
      rw [← hfs3]
      have hmade : (∃ s', linkInto cwd new ip full c3.fs = .ok (true, s')) →
          Succeeds (sysLink cwd old new full) (· = 0) c.fs := by
        rintro ⟨s4, hinto⟩
        obtain ⟨s5, hput⟩ := iput_ok ip s4
        refine ⟨0, s5, (bind_run hname).trans ((bind_run hlock).trans ?_), rfl⟩
        rw [show (ghost G).state c2 = c2.fs from rfl, load_bind, if_neg hdir, store_bind, ← hfs3, bind_run hinto, if_pos rfl]
        exact bind_run hput
      refine Sim.bind (linkInto_sim hb3 howner3 (hpend3 ▸ mem_cons_self) hip3 fun hinto dp name hres hd hslot =>
        henter.guard (hmade hinto) hsame3 hd (hsame3.walkParent hres) hslot) ?_
      rintro linked c4 - ⟨hb4, hlinked⟩
      cases linked with
      | true =>
        refine iput_idle_sim hb4 ?_ _
        rw [show c4.pend = c3.pend.erase ip from hlinked.1, hpend3]
        simp
      | false =>
        have hq4 : Quiet [ip] c3 c4 := hlinked
        refine Sim.bind (ilock_sim hb4 mem_cons_self) ?_
        rintro - c5 - ⟨hk5, hb5, -⟩
        have hq5 := hq4.trans (hk5.quiet [ip])
        have hip5 : (c5.fs.inode ip).type ≠ .free ∧ (c5.fs.inode ip).type ≠ .dir := by
          rw [hq5.held ip mem_cons_self]
          exact hip3
        have hpend5 : c5.pend = [ip] := hq5.pend.trans hpend3
        have hdown : Micro G c5 ⟨c5.fs.setInode ip (c5.fs.inode ip).dec, c5.pend.erase ip⟩ :=
          .dec ip (hpend5 ▸ mem_cons_self) hip5
        have hb6 : Base [ip] (c5.fs.setInode ip (c5.fs.inode ip).dec) := hb5.relink hip5 rfl
        refine Sim.after (.one hdown) (iput_idle_sim hb6 ?_ _)
        simp [hpend5]

/-! ## `sys_unlink` -/

theorem iput_store_comm (hne : ip ≠ dp) (k : Unit → M Int) (s : Fs) :
    (iput dp >>= fun _ => load ip >>= fun i => store ip i.dec >>= k) s =
      (store ip (s.inode ip).dec >>= fun _ => iput dp >>= k) s := by
  have hother : ∀ i : Inode, update s.inode ip i dp = s.inode dp :=
    fun i => update_of_ne hne.symm _ _
  rw [store_bind]
  have hl : (iput dp >>= fun _ => load ip >>= fun i => store ip i.dec >>= k) s =
      (iput dp s).bind fun us => k () (us.2.setInode ip (us.2.inode ip).dec) := rfl
  have hr : (iput dp >>= k) (s.setInode ip (s.inode ip).dec) =
      (iput dp (s.setInode ip (s.inode ip).dec)).bind fun us => k () us.2 := rfl
  rw [hl, hr]
  unfold iput
  simp only [Fs.setInode, hother]
  split
  · simp only [Except.bind, update_of_ne hne, update_comm hne]
  · simp only [Except.bind]

theorem iput_iput_idle_sim {y : Nat} (hb : Base [x, y] c.fs) (hB : c.pend = []) (r : Int) :
    Sim (ghost G) c ((iput x >>= fun _ => iput y >>= fun _ => pure r : M Int) c.fs) fun _ d => Idle d := by
  refine Sim.bind (iput_sim hb) ?_
  rintro - d - ⟨hq, hbase⟩
  exact iput_idle_sim hbase (hq.pend.trans hB) r

/-- The removal itself: `dp` loses slot `k`, which names `ip`. -/
theorem unlink_sim {k : Nat} {e : Dirent} (hb : Base [dp, ip] c.fs) (hB : c.pend = [])
    (hne : ip ≠ dp) (hd : (c.fs.inode dp).type = .dir) (halloc : (c.fs.inode ip).type ≠ .free)
    (hslot : (c.fs.inode dp).ents[k]? = some e) (hip : e.inum = ip)
    (hdot : e.name ≠ dot ∧ e.name ≠ dotdot)
    (hempty : (c.fs.inode ip).type = .dir → isdirempty (c.fs.inode ip).ents = true)
    (hl : 1 ≤ (c.fs.inode ip).nlink.toInt)
    (hg : (c.fs.inode ip).type = .dir → G.childless → Childless c.fs ip) (r : Int) :
    Sim (ghost G) c ((store dp (if (c.fs.inode ip).type = .dir
        then ((c.fs.inode dp).setEnts ((c.fs.inode dp).ents.set k .empty)).dec
        else (c.fs.inode dp).setEnts ((c.fs.inode dp).ents.set k .empty)) >>= fun _ =>
      store ip (c.fs.inode ip).dec >>= fun _ => iput dp >>= fun _ => iput ip >>= fun _ => pure r : M Int) c.fs)
      fun _ d => Idle d := by
  have hok := hb.shape dp hd
  have hdp := hb.dir hd
  have hip0 := hb.range ip halloc
  obtain ⟨j, hj, hset⟩ := hok.slot hslot hdot.1 hdot.2
  have hrest : Extends ((regular (c.fs.inode dp).ents).set j .empty) ⟨ip, e.name⟩
      (regular (c.fs.inode dp).ents) := by
    rw [← hip]
    exact extends_clear hj
  have hnames : ∀ a ∈ (regular (c.fs.inode dp).ents).set j .empty, a.inum ≠ 0 →
      a.name ≠ dot ∧ a.name ≠ dotdot :=
    fun a ha h0 => hok.names a ((hrest.mem_iff h0).2 (.inr ha)) h0
  -- both kinds of removal keep the references and the shape of the directories
  have hbase : ∀ i : Inode, i.type = .dir →
      i.ents = ⟨dp, dot⟩ :: ⟨parentOf (c.fs.inode dp).ents, dotdot⟩ :: (regular (c.fs.inode dp).ents).set j .empty →
      Base [dp, ip] ((c.fs.setInode dp i).setInode ip (c.fs.inode ip).dec) := by
    intro i hi hents
    have hbi : Base [dp, ip] (c.fs.setInode dp i) :=
      hb.setInode (fun _ => hdp) (fun h => absurd (hi ▸ h) nofun)
        fun _ => hents ▸ .replace hok.parent hnames
    exact hbi.setInode (fun _ => hip0) (fun h => absurd h halloc) fun h => hb.shape ip h
  have hfile := fun ents => hbase ((c.fs.inode dp).setEnts ents) hd
  have hsub := fun ents => hbase ((c.fs.inode dp).setEnts ents).dec hd
  rw [hset, store_bind, store_bind]
  split
  next hdir =>
    have hall : ∀ a ∈ regular (c.fs.inode ip).ents, a.inum = 0 := by
      have := hempty hdir
      simpa [isdirempty, regular] using this
    have hstep : Micro G c ⟨_, _⟩ :=
      .rmdir dp ip e.name _ hne hd hdir hip0.1 hall hrest hl (hg hdir)
    exact Sim.after (.one hstep) (iput_iput_idle_sim (c := ⟨_, _⟩) (hsub _ rfl) hB r)
  next hdir =>
    have hstep : Micro G c ⟨_, _⟩ := .remove dp ip e.name _ hne hd ⟨halloc, hdir⟩ hip0.1 hrest hl
    exact Sim.after (.one hstep) (iput_iput_idle_sim (c := ⟨_, _⟩) (hfile _ rfl) hB r)

theorem sysUnlink_sim (hb : Base [] c.fs) (hB : c.pend = []) (hcwd : 0 < c.fs.owners cwd)
    (hg : G.childless → Succeeds (sysUnlink cwd path) (· = 0) c.fs → ∀ dp name x,
      resolveParent c.fs cwd path = some (dp, name) → lookup c.fs dp name = some x → (c.fs.inode x).type = .dir →
      Childless c.fs x) :
    Sim (ghost G) c (sysUnlink cwd path c.fs) fun _ d => Idle d := by
  refine Sim.bind (namex_sim true hb hcwd) ?_
  rintro r c1 hpath ⟨hq1, hfound⟩
  match r, hfound with
  | none, hb1 => exact Sim.ok rfl ⟨hb1, hq1.pend.trans hB⟩
  | some (dp, name), ⟨hb1, hwalk, hdir⟩ =>
    refine Sim.bind (ilock_sim hb1 mem_cons_self) ?_
    rintro _ c2 hlockd ⟨hk2, hb2, -⟩
    have hdir2 : (c2.fs.inode dp).type = .dir := hk2.inode ▸ hdir
    have hq2 := hq1.trans (hk2.quiet [])
    split
    next => exact iput_idle_sim hb2 (hq2.pend.trans hB) _
    next hdots =>
      have hdot : name ≠ dot ∧ name ≠ dotdot := not_or.1 hdots
      refine Sim.bind (dirlookup_sim hb2 hdir2) ?_
      rintro r c3 hentry ⟨hk3, hlook⟩
      have hq3 := hq2.trans (hk3.quiet [])
      match r, hlook with
      | none, hlook => exact iput_idle_sim hlook.2 (hq3.pend.trans hB) _
      | some (ip, k), hlook =>
        obtain ⟨e, he, hne0, hname⟩ := slotOf_eq_some hlook.1
        have hip : e.inum = ip := by
          rw [hlook.2.1, getD_eq_getElem?_getD, he]
          rfl
        dsimp only
        split
        next => exact Sim.error trivial
        next hne =>
          refine Sim.bind (ilock_sim hlook.2.2 mem_cons_self) ?_
          rintro _ c4 hlocki ⟨hk4, hb4, halloc3⟩
          have hk34 := hk3.trans hk4
          have hq4 := hq2.trans (hk34.quiet [])
          have hB4 : c4.pend = [] := hq4.pend.trans hB
          have hdir4 : (c4.fs.inode dp).type = .dir := hk34.inode ▸ hdir2
          have halloc : (c4.fs.inode ip).type ≠ .free := hk4.inode ▸ halloc3
          have he4 : (c4.fs.inode dp).ents[k]? = some e := hk34.inode ▸ he
          have hdotE : e.name ≠ dot ∧ e.name ≠ dotdot := hname ▸ hdot
          rw [show (ghost G).state c4 = c4.fs from rfl, load_bind]
          split
          next hlow =>
            -- the panic: the entry found names an inode without links
            obtain ⟨j, hj, -⟩ := (hb4.shape dp hdir4).slot he4 hdotE.1 hdotE.2
            exact Sim.error ⟨dp, hdir4, e, mem_of_getElem? hj, hne0, hip ▸ hlow⟩
          next hlow =>
            split
            next => exact iput_iput_idle_sim hb4 hB4 _
            next hfull =>
              have hgone : Succeeds (sysUnlink cwd path) (· = 0) c.fs := by
                obtain ⟨s5, hput5⟩ := iput_ok dp (c4.fs.setInode dp _)
                obtain ⟨s6, hput6⟩ := iput_ok ip (s5.setInode ip (s5.inode ip).dec)
                refine ⟨0, s6, (bind_run hpath).trans ((bind_run hlockd).trans ?_), rfl⟩
                rw [if_neg hdots]
                refine (bind_run hentry).trans ?_
                dsimp only
                rw [if_neg hne]
                refine (bind_run hlocki).trans ?_
                rw [show (ghost G).state c4 = c4.fs from rfl, load_bind, if_neg hlow, if_neg hfull, load_bind, store_bind]
                refine (bind_run (m := iunlockput dp) hput5).trans ?_
                rw [load_bind, store_bind]
                exact bind_run (m := iunlockput ip) hput6
              have hchild : (c4.fs.inode ip).type = .dir → G.childless → Childless c4.fs ip := by
                intro hd hcl y hy hyd hpar
                have hsame := hq4.sameDirs
                have hipc : lookup c.fs dp name = some ip :=
                  hq2.sameDirs.lookup (hlook.lookup hdir2)
                have hdc : (c.fs.inode ip).type = .dir := by rw [hsame ip hd]; exact hd
                have hyc := hsame y hyd
                exact hg hcl hgone dp name ip hwalk hipc hdc y hy (by rw [hyc]; exact hyd) (by rw [hyc]; exact hpar)
              have hempty : (c4.fs.inode ip).type = .dir → isdirempty (c4.fs.inode ip).ents = true := by
                intro hd
                by_contra hno
                exact hfull ⟨hd, hno⟩
              have hrun := unlink_sim hb4.swap hB4 hne hdir4 halloc he4 hip hdotE hempty (by omega) hchild 0
              rw [load_bind, store_bind]
              -- the code drops `dp` before it lowers the count of `ip`
              refine (congrArg (Sim (ghost G) c4 · fun _ d => Idle d)
                (iput_store_comm hne (fun _ => iput ip >>= fun _ => pure 0) _)).mpr ?_
              rwa [show (Fs.setInode _ dp _).inode ip = c4.fs.inode ip from update_of_ne hne _ _]

end Xv6Riscv.Dir
