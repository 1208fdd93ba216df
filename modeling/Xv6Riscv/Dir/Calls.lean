import Xv6Riscv.Dir.Create

/-!
# Every call as small steps

Open files, current directories and `fork` move references between the local variables of a call and
the tables; none of this touches an inode. With `link`, `unlink` and `create` this covers the
machine: `step_sim`.
-/
namespace Xv6Riscv.Dir
open Finset Simulation Function
variable {cwd f fd p : Nat} {o : Option Nat} {path : List Char}

variable {G : Guard} {T : List Nat} {c d e : Cfg} {s s' : Fs} {x : Nat}

/-! ## Owners -/

theorem cwdRef_some (y x : Nat) : cwdRef (some y) x = [y].count x := by
  by_cases h : y = x <;> simp [cwdRef, h]

theorem Fs.owners_setCwd (s : Fs) (hp : p < NPROC) (o : Option Nat) (x : Nat) :
    (s.setCwd p o).owners x + cwdRef (s.cwd p) x = s.owners x + cwdRef o x := by
  have := Count.sum_update (range NPROC) s.cwd (cwdRef · x) (mem_range.2 hp) o
  simp only [Fs.owners, Fs.setCwd]
  omega

theorem Fs.owners_setFile (s : Fs) (hf : f < NFILE) (e : File) (x : Nat) :
    (s.setFile f e).owners x + fileRef (s.file f) x = s.owners x + fileRef e x := by
  have := Count.sum_update (range NFILE) s.file (fileRef · x) (mem_range.2 hf) e
  simp only [Fs.owners, Fs.setFile]
  omega

theorem Fs.owners_cwd (hp : p < NPROC) (h : s.cwd p = some cwd) : 0 < s.owners cwd := by
  have := Count.le_sum (range NPROC) (fun p => cwdRef (s.cwd p) cwd) (mem_range.2 hp)
  simp only [h, cwdRef, if_true] at this
  unfold Fs.owners cwdRef
  omega

theorem Base.setCwd {T' : List Nat} (hb : Base T s) (h : ∀ x, cwdRef o x + T'.count x = cwdRef (s.cwd p) x + T.count x)
    (ho : ∀ x, o = some x → (s.inode x).type ≠ .free) (hp : p < NPROC) : Base T' (s.setCwd p o) where
  range := hb.range
  shape := hb.shape
  refs x := by
    have := hb.refs x
    have := h x
    have := s.owners_setCwd hp o x
    show s.ref x = _
    omega
  fresh := hb.fresh
  owned x hx := by
    have hup := s.owners_setCwd hp o x
    by_cases hox : o = some x
    · exact ho x hox
    · have : cwdRef o x = 0 := if_neg hox
      exact hb.owned x (by omega)
  files := hb.files
  bound := hb.bound

theorem Base.setFile {T' : List Nat} {e : File} (hb : Base T s)
    (h : ∀ x, fileRef e x + T'.count x = fileRef (s.file f) x + T.count x)
    (ho : ∀ x, e.ip = some x → (s.inode x).type ≠ .free) (hf : f < NFILE) : Base T' (s.setFile f e) where
  range := hb.range
  shape := hb.shape
  refs x := by
    have := hb.refs x
    have := h x
    have := s.owners_setFile hf e x
    show s.ref x = _
    omega
  fresh := hb.fresh
  owned x hx := by
    have hup := s.owners_setFile hf e x
    by_cases hox : e.ip = some x
    · exact ho x hox
    · have : fileRef e x = 0 := if_neg fun h => hox h.2
      exact hb.owned x (by omega)
  files := hb.files
  bound := hb.bound

theorem Base.setFd (hb : Base T s) (ho : ∀ f, o = some f → f < NFILE) : Base T (s.setFd p fd o) :=
  { hb with
    files := by
      intro q k f hqk
      simp only [Fs.setFd] at hqk
      by_cases hq : q = p
      · subst hq
        rw [update_self] at hqk
        by_cases hk : k = fd
        · subst hk
          rw [update_self] at hqk
          exact ho f hqk
        · rw [update_of_ne hk] at hqk
          exact hb.files q k f hqk
      · rw [update_of_ne hq] at hqk
        exact hb.files q k f hqk }

/-! The tables of processes and files change, the inodes do not. -/

theorem micro_setCwd (c : Cfg) (p : Nat) (o : Option Nat) : Micro G c ⟨c.fs.setCwd p o, c.pend⟩ :=
  .tau rfl rfl fun _ hx => .inl hx

theorem micro_setFile (c : Cfg) (f : Nat) (e : File) : Micro G c ⟨c.fs.setFile f e, c.pend⟩ :=
  .tau rfl rfl fun _ hx => .inl hx

theorem micro_setFd (c : Cfg) (p fd : Nat) (o : Option Nat) : Micro G c ⟨c.fs.setFd p fd o, c.pend⟩ :=
  .tau rfl rfl fun _ hx => .inl hx

/-! ## Files -/

/-- Only tables and references changed, apart from inodes freed; those in `T` were kept. -/
structure Tables (T : List Nat) (c d : Cfg) : Prop where
  cwd : d.fs.cwd = c.fs.cwd
  pend : d.pend = c.pend
  held : ∀ x ∈ T, d.fs.inode x = c.fs.inode x
  base : Base T d.fs

theorem Tables.refl (hb : Base T c.fs) : Tables T c c := ⟨rfl, rfl, fun _ _ => rfl, hb⟩

theorem Tables.trans (h : Tables T c d) (k : Tables T d e) : Tables T c e :=
  ⟨k.cwd.trans h.cwd, k.pend.trans h.pend, fun x hx => (k.held x hx).trans (h.held x hx), k.base⟩

theorem fileRef_ref {e : File} (h : 0 < e.ref) {n : Nat} (hn : 0 < n) (x : Nat) :
    fileRef ⟨n, e.ip⟩ x = fileRef e x := by
  simp [fileRef, h, hn]

theorem Base.file_alloc (hb : Base T s) (hf : f < NFILE) (hpos : 0 < (s.file f).ref)
    (hip : (s.file f).ip = some x) : (s.inode x).type ≠ .free := by
  apply hb.owned
  have := Count.le_sum (range NFILE) (fun f => fileRef (s.file f) x) (mem_range.2 hf)
  have hone : fileRef (s.file f) x = 1 := if_pos ⟨hpos, hip⟩
  unfold Fs.owners
  omega

theorem fileclose_sim (hb : Base T c.fs) (hf : f < NFILE) :
    Sim (ghost G) c (fileclose f c.fs) fun _ d => Tables T c d := by
  unfold fileclose
  rw [get_bind]
  split
  next => exact Sim.error trivial
  next hpos =>
    have hpos : 0 < (c.fs.file f).ref := by omega
    split
    next hmore =>
      refine Sim.ok_step (micro_setFile c f ⟨(c.fs.file f).ref - 1, (c.fs.file f).ip⟩) rfl
        ⟨rfl, rfl, fun _ _ => rfl, hb.setFile ?_ ?_ hf⟩
      · intro x
        rw [fileRef_ref hpos (by omega)]
      · exact fun x hx => hb.file_alloc hf hpos hx
    next hlast =>
      refine Sim.after (.one (micro_setFile c f ⟨0, none⟩)) ?_
      cases hip : (c.fs.file f).ip with
      | none =>
        refine Sim.ok rfl ⟨rfl, rfl, fun _ _ => rfl, hb.setFile (fun x => ?_) (by simp) hf⟩
        simp [fileRef, hip]
      | some ip =>
        have hb1 : Base (ip :: T) (c.fs.setFile f ⟨0, none⟩) := by
          refine hb.setFile (fun x => ?_) (by simp) hf
          simp only [fileRef, hip, hpos, List.count_cons]
          by_cases hx : ip = x <;> simp [hx]
          omega
        refine (iput_sim (c := ⟨_, _⟩) hb1).mono ?_
        rintro - d - ⟨hq, hbase⟩
        exact ⟨hq.cwd, hq.pend, hq.held, hbase⟩

theorem closeFd_sim (hb : Base T c.fs) (hf : f < NFILE) :
    Sim (ghost G) c (closeFd p fd f c.fs) fun _ d => Tables T c d := by
  unfold closeFd
  have hb1 : Base T (c.fs.setFd p fd none) := hb.setFd nofun
  refine Sim.after (.one (micro_setFd c p fd none)) ((fileclose_sim (c := ⟨_, _⟩) hb1 hf).mono ?_)
  rintro - d - htab
  exact ⟨htab.cwd, htab.pend, htab.held, htab.base⟩

theorem closeAll_sim : ∀ (n : Nat) {c : Cfg}, Base T c.fs →
    Sim (ghost G) c (closeAll p n c.fs) fun _ d => Tables T c d
  | 0, c, hb => Sim.ok rfl (.refl hb)
  | n + 1, c, hb => by
    unfold closeAll
    refine Sim.bind (closeAll_sim n hb) ?_
    rintro - c1 - htab
    rw [get_bind, show (ghost G).state c1 = c1.fs from rfl]
    cases hfd : c1.fs.ofile p n with
    | none => exact Sim.ok rfl htab
    | some f =>
      refine (closeFd_sim htab.base (htab.base.files p n f hfd)).mono ?_
      rintro - d - htab'
      exact htab.trans htab'

theorem opened_sim {ip : Nat} (hb : Base [ip] c.fs) (hB : c.pend = []) (halloc : (c.fs.inode ip).type ≠ .free) :
    Sim (ghost G) c (opened p ip c.fs) fun _ d => Idle d := by
  unfold opened
  rw [load_bind]
  split
  next => exact iput_idle_sim hb hB _
  next =>
    have hfilealloc : Sim (ghost G) c (filealloc c.fs) fun r d => d.fs.inode = c.fs.inode ∧ d.pend = c.pend ∧
        Base [ip] d.fs ∧ ∀ f, r = some f → f < NFILE ∧ d.fs.file f = ⟨1, none⟩ := by
      unfold filealloc
      split
      next => exact Sim.ok rfl ⟨rfl, rfl, hb, nofun⟩
      next f hfind =>
        have hlt : f < NFILE := List.mem_range.1 (List.mem_of_find?_eq_some hfind)
        have hzero : (c.fs.file f).ref = 0 := by simpa using List.find?_some hfind
        have hb1 : Base [ip] (c.fs.setFile f ⟨1, none⟩) :=
          hb.setFile (fun x => by simp [fileRef, hzero]) nofun hlt
        refine Sim.ok_step (micro_setFile c f ⟨1, none⟩) rfl ⟨rfl, rfl, hb1, ?_⟩
        intro g hg
        cases hg
        exact ⟨hlt, update_self _ _ _⟩
    refine Sim.bind hfilealloc ?_
    rintro r c1 - ⟨hi1, hB1, hb1, hf1⟩
    have hB1 : c1.pend = [] := hB1.trans hB
    cases r with
    | none => exact iput_idle_sim hb1 hB1 _
    | some f =>
      obtain ⟨hlt, hfile⟩ := hf1 f rfl
      have hfdalloc : Sim (ghost G) c1 (fdalloc p f c1.fs) fun r d => d.fs.inode = c1.fs.inode ∧
          d.pend = c1.pend ∧ Base [ip] d.fs ∧ d.fs.file f = ⟨1, none⟩ := by
        unfold fdalloc
        split
        next => exact Sim.ok rfl ⟨rfl, rfl, hb1, hfile⟩
        next fd _ =>
          refine Sim.ok_step (micro_setFd c1 p fd (some f)) rfl ⟨rfl, rfl, hb1.setFd ?_, hfile⟩
          intro g hg
          exact Option.some.inj hg ▸ hlt
      refine Sim.bind hfdalloc ?_
      rintro r c2 - ⟨hi2, hB2, hb2, hfile2⟩
      have hB2 : c2.pend = [] := hB2.trans hB1
      cases r with
      | none =>
        refine Sim.bind (fileclose_sim hb2 hlt) ?_
        rintro - c3 - htab
        exact iput_idle_sim htab.base (htab.pend.trans hB2) _
      | some fd =>
        refine Sim.ok_step (micro_setFile c2 f ⟨1, some ip⟩) rfl ⟨hb2.setFile (fun x => ?_) ?_ hlt, hB2⟩
        · by_cases hx : ip = x <;> simp [fileRef, hfile2, hx]
        · intro x hx
          rw [hi2, hi1]
          exact Option.some.inj hx ▸ halloc

/-! ## The calls -/

/-- The common start of `open`, `chdir` and `exec`: the inode is looked up and locked. -/
theorem locked_sim {k : Nat → M Int} (hb : Base [] c.fs) (hB : c.pend = []) (hcwd : 0 < c.fs.owners cwd)
    (hk : ∀ ip c2, Base [ip] c2.fs → c2.pend = [] → c2.fs.cwd = c.fs.cwd → (c2.fs.inode ip).type ≠ .free →
      Sim (ghost G) c2 (k ip c2.fs) fun _ d => Idle d) :
    Sim (ghost G) c ((do
      match ← namei cwd path with
      | none => pure (-1)
      | some (ip, _) =>
        ilock ip
        k ip : M Int) c.fs) fun _ d => Idle d := by
  refine Sim.bind (namex_sim false hb hcwd) ?_
  rintro r c1 - ⟨hq1, hfound⟩
  match r, hfound with
  | none, hb1 => exact Sim.ok rfl ⟨hb1, hq1.pend.trans hB⟩
  | some (ip, _), ⟨hb1, _⟩ =>
    refine Sim.bind (ilock_sim hb1 List.mem_cons_self) ?_
    rintro - c2 - ⟨hk2, hb2, halloc⟩
    exact hk ip c2 hb2 (hk2.pend.trans (hq1.pend.trans hB)) (hk2.cwd.trans hq1.cwd) (hk2.inode ▸ halloc)

theorem sysOpen_sim {omode : Nat} (full : Full) (hb : Base [] c.fs) (hB : c.pend = []) (hcwd : 0 < c.fs.owners cwd)
    (hg : omode &&& O_CREATE ≠ 0 → MayCreate G c.fs cwd path .file 0 full) :
    Sim (ghost G) c (sysOpen p cwd path omode full c.fs) fun _ d => Idle d := by
  unfold sysOpen
  split
  next hcreate =>
    have hty : IType.file ≠ .free := nofun
    refine Sim.bind (create_sim 0 full hb hB hcwd hty (hg hcreate)) ?_
    rintro r c1 - ⟨hB1, hr⟩
    cases r with
    | none => exact Sim.ok rfl ⟨hr, hB1⟩
    | some ip => exact opened_sim hr.1 hB1 hr.2
  next =>
    refine locked_sim hb hB hcwd fun ip c2 hb2 hB2 _ halloc => ?_
    rw [load_bind]
    split
    next => exact iput_idle_sim hb2 hB2 _
    next => exact opened_sim hb2 hB2 halloc

theorem sysMake_sim {ty : IType} (major : Int) (full : Full)
    (hb : Base [] c.fs) (hB : c.pend = []) (hcwd : 0 < c.fs.owners cwd) (hty : ty ≠ .free)
    (hg : MayCreate G c.fs cwd path ty major full) :
    Sim (ghost G) c (sysMake cwd path ty major full c.fs) fun _ d => Idle d := by
  refine Sim.bind (create_sim major full hb hB hcwd hty hg) ?_
  rintro r c1 - ⟨hB1, hr⟩
  cases r with
  | none => exact Sim.ok rfl ⟨hr, hB1⟩
  | some ip => exact iput_idle_sim hr.1 hB1 _

theorem iput_setCwd_comm (p : Nat) (o : Option Nat) (r : Int) :
    (iput x >>= fun _ => modify (·.setCwd p o) >>= fun _ => pure r : M Int) s =
      (iput x >>= fun _ => pure r : M Int) (s.setCwd p o) := by
  have hl : (iput x >>= fun _ => modify (·.setCwd p o) >>= fun _ => pure r : M Int) s =
    (iput x s).bind fun us => .ok (r, us.2.setCwd p o) := rfl
  have hr : (iput x >>= fun _ => pure r : M Int) (s.setCwd p o) =
    (iput x (s.setCwd p o)).bind fun us => .ok (r, us.2) := rfl
  rw [hl, hr]
  unfold iput Fs.setCwd
  split <;> rfl

/-- The old current directory is dropped, the new one (if any) is kept by the process. -/
theorem leave_sim (r : Int) (hb : Base T c.fs) (hB : c.pend = [])
    (hp : p < NPROC) (hcwd : c.fs.cwd p = some cwd) (hT : ∀ x, T.count x = cwdRef o x)
    (ho : ∀ x, o = some x → (c.fs.inode x).type ≠ .free) :
    Sim (ghost G) c ((iput cwd >>= fun _ => modify (·.setCwd p o) >>= fun _ => pure r : M Int) c.fs)
      fun _ d => Idle d := by
  have hb1 : Base [cwd] (c.fs.setCwd p o) := by
    refine hb.setCwd (fun x => ?_) ho hp
    rw [hcwd, cwdRef_some, hT]
    omega
  rw [iput_setCwd_comm]
  exact Sim.after (.one (micro_setCwd c p o)) (iput_idle_sim (c := ⟨_, _⟩) hb1 hB r)

section
variable (hb : Base [] c.fs) (hB : c.pend = [])
include hb hB

theorem sysChdir_sim (hp : p < NPROC) (hcwd : c.fs.cwd p = some cwd) :
    Sim (ghost G) c (sysChdir p cwd path c.fs) fun _ d => Idle d := by
  refine locked_sim hb hB (Fs.owners_cwd hp hcwd) fun ip c2 hb2 hB2 hcwd2 halloc => ?_
  rw [load_bind]
  split
  next => exact iput_idle_sim hb2 hB2 _
  next =>
    refine leave_sim 0 hb2 hB2 hp (hcwd2 ▸ hcwd) (fun x => (cwdRef_some ip x).symm) fun x hx => ?_
    exact Option.some.inj hx ▸ halloc

theorem sysExec_sim (hcwd : 0 < c.fs.owners cwd) : Sim (ghost G) c (sysExec cwd path c.fs) fun _ d => Idle d :=
  locked_sim hb hB hcwd fun _ _ hb2 hB2 _ _ => iput_idle_sim hb2 hB2 _

theorem sysClose_sim : Sim (ghost G) c (sysClose p fd c.fs) fun _ d => Idle d := by
  unfold sysClose
  split
  next => exact Sim.ok rfl ⟨hb, hB⟩
  next =>
    rw [get_bind]
    cases hfd : c.fs.ofile p fd with
    | none => exact Sim.ok rfl ⟨hb, hB⟩
    | some f =>
      refine Sim.bind (closeFd_sim hb (hb.files p fd f hfd)) ?_
      rintro - c1 - htab
      exact Sim.ok rfl ⟨htab.base, htab.pend.trans hB⟩

theorem exit_sim (hp : p < NPROC)
    (hcwd : c.fs.cwd p = some cwd) : Sim (ghost G) c (exit p cwd c.fs) fun _ d => Idle d := by
  unfold exit
  split
  next => exact Sim.error trivial
  next =>
    refine Sim.bind (closeAll_sim NOFILE hb) ?_
    rintro - c1 - htab
    exact leave_sim 0 htab.base (htab.pend.trans hB) hp (htab.cwd ▸ hcwd) (fun _ => rfl) nofun

end

theorem filedup_sim (hb : Base T c.fs) (hf : f < NFILE) : Sim (ghost G) c (filedup f c.fs) fun _ d => Tables T c d := by
  unfold filedup
  split
  next => exact Sim.error trivial
  next hpos =>
    have hpos : 0 < (c.fs.file f).ref := by omega
    refine Sim.ok_step (micro_setFile c f ⟨(c.fs.file f).ref + 1, (c.fs.file f).ip⟩) rfl
      ⟨rfl, rfl, fun _ _ => rfl, hb.setFile (fun x => ?_) (fun x hx => hb.file_alloc hf hpos hx) hf⟩
    rw [fileRef_ref hpos (by omega)]

theorem dupAll_sim {q : Nat} : ∀ (n : Nat) {c : Cfg}, Base T c.fs →
    Sim (ghost G) c (dupAll p q n c.fs) fun _ d => Tables T c d
  | 0, c, hb => Sim.ok rfl (.refl hb)
  | n + 1, c, hb => by
    unfold dupAll
    refine Sim.bind (dupAll_sim n hb) ?_
    rintro - c1 - htab
    rw [get_bind, show (ghost G).state c1 = c1.fs from rfl]
    cases hfd : c1.fs.ofile p n with
    | none => exact Sim.ok rfl htab
    | some f =>
      have hf := htab.base.files p n f hfd
      refine Sim.bind (filedup_sim htab.base hf) ?_
      rintro - c2 - htab2
      have hall := htab.trans htab2
      refine Sim.ok_step (micro_setFd c2 q n (some f)) rfl
        ⟨hall.cwd, hall.pend, hall.held, hall.base.setFd ?_⟩
      intro g hg
      exact Option.some.inj hg ▸ hf

theorem fork_sim {q : Nat} (hb : Base [] c.fs) (hB : c.pend = []) (hp : p < NPROC) (hq : q < NPROC)
    (hcwd : c.fs.cwd p = some cwd) (hfree : c.fs.cwd q = none) :
    Sim (ghost G) c (fork p q cwd c.fs) fun _ d => Idle d := by
  refine Sim.bind (dupAll_sim NOFILE hb) ?_
  rintro - c1 - htab
  have howner : 0 < c1.fs.owners cwd := Fs.owners_cwd hp (htab.cwd ▸ hcwd)
  have hpos : 0 < c1.fs.ref cwd := by
    have := htab.base.refs cwd
    omega
  refine Sim.bind (idup_sim htab.base hpos) ?_
  rintro a c2 - ⟨rfl, hk2, hb2⟩
  refine Sim.ok_step (micro_setCwd c2 q (some a)) rfl
    ⟨hb2.setCwd (fun x => ?_) ?_ hq, hk2.pend.trans (htab.pend.trans hB)⟩
  · rw [cwdRef_some, hk2.cwd, htab.cwd, hfree]
    simp [cwdRef]
  · intro x hx
    rw [hk2.inode]
    exact Option.some.inj hx ▸ htab.base.owned _ howner

/-! ## The machine -/

/-- **Every call is a sequence of small steps.** From a state between calls an allowed call returns to
a state between calls along small steps, and a panic shows a bad configuration on the way. -/
theorem step_sim {e : Nat × Call} (hb : Base [] s) (hal : Allowed G s e) :
    match step s e with
    | .stuck => True
    | .ok s' => Base [] s' ∧ (ghost G).Path ⟨s, []⟩ ⟨s', []⟩
    | .halt p => ∃ d, (ghost G).Path ⟨s, []⟩ d ∧ bad p d := by
  obtain ⟨p, call⟩ := e
  cases hcwd : s.cwd p with
  | none => simp only [step, hcwd]
  | some cwd =>
    by_cases hen : call.enabled s p = true
    · have hp : p < NPROC := by
        cases call <;> simp [Call.enabled] at hen <;> omega
      have howner : 0 < s.owners cwd := Fs.owners_cwd hp hcwd
      have hallow := hal cwd hcwd
      have hsim : Sim (ghost G) ⟨s, []⟩ (call.body p cwd s) fun _ d => Idle d := by
        cases call with
        | «open» path omode full => exact sysOpen_sim (c := ⟨s, []⟩) full hb rfl howner hallow
        | mkdir path full => exact sysMake_sim (c := ⟨s, []⟩) 0 full hb rfl howner nofun hallow
        | mknod path major full => exact sysMake_sim (c := ⟨s, []⟩) major full hb rfl howner nofun hallow
        | link old new full => exact sysLink_sim (c := ⟨s, []⟩) hb rfl howner hallow.1 hallow.2
        | unlink path => exact sysUnlink_sim (c := ⟨s, []⟩) hb rfl howner hallow
        | chdir path => exact sysChdir_sim (c := ⟨s, []⟩) hb rfl hp hcwd
        | exec path => exact sysExec_sim (c := ⟨s, []⟩) hb rfl howner
        | close fd => exact sysClose_sim (c := ⟨s, []⟩) hb rfl
        | exit => exact exit_sim (c := ⟨s, []⟩) hb rfl hp hcwd
        | fork q =>
          simp only [Call.enabled, Bool.decide_and, Bool.and_eq_true, decide_eq_true_eq] at hen
          exact fork_sim (c := ⟨s, []⟩) hb rfl hp hen.2.1 hcwd hen.2.2
      cases hrun : call.body p cwd s with
      | ok rs =>
        rw [hrun] at hsim
        simp only [step, hcwd, hen, if_true, hrun]
        obtain ⟨d, hd, hpath, hbase, hpend⟩ := hsim
        obtain ⟨fs, pend⟩ := d
        cases hd
        cases hpend
        exact ⟨hbase, hpath⟩
      | error q =>
        rw [hrun] at hsim
        simp only [step, hcwd, hen, if_true, hrun]
        exact hsim
    · simp only [step, hcwd, hen]
      trivial

section Runs
open Machine

variable {I : Cfg → Prop} {init : Fs → Prop}

/-- What every small step preserves holds in every state of a run of allowed calls. -/
theorem reach_inv (hm : ∀ c d, I c → Micro G c d → I d) (h0 : ∀ s, init s → Base [] s ∧ I ⟨s, []⟩)
    (h : Reach step init (Allowed G) s) : Base [] s ∧ I ⟨s, []⟩ := by
  refine h.inv (I := fun s => Base [] s ∧ I ⟨s, []⟩) h0 ?_
  intro s e s' ⟨hb, hi⟩ hal hstep
  have hsim := step_sim hb hal
  rw [hstep] at hsim
  exact ⟨hsim.1, hsim.2.inv (I := I) hm hi⟩

/-- A panic of an allowed call shows a bad configuration in which the invariant holds. -/
theorem halt_bad (hm : ∀ c d, I c → Micro G c d → I d) (hb : Base [] s) (hi : I ⟨s, []⟩)
    {e : Nat × Call} (hal : Allowed G s e) {p : Panic} (hhalt : step s e = .halt p) : ∃ c, I c ∧ bad p c := by
  have hsim := step_sim hb hal
  rw [hhalt] at hsim
  obtain ⟨c, hpath, hbad⟩ := hsim
  exact ⟨c, hpath.inv (I := I) hm hi, hbad⟩

end Runs

end Xv6Riscv.Dir
