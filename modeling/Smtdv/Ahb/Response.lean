import Smtdv.Ahb.DataSide

/-! Responses in a run: while they come in the data phase of a beat that is not the last of
its item, the driver charges each to the item it is for, and loses none. -/
namespace Smtdv.Ahb.Driver
open Lib

variable {aw dw : Nat}

/-- What every run under the condition keeps. -/
structure Tracked (s : Driver aw dw) : Prop where
  sound : Sound s
  regular : (watch s.cycles).Regular
  edge : s.addrArmed = true ∨ s.dataArmed = true → ∃ before c, Edge s before c
  addr : AddrSide s
  data : DataSide s
  lag : SameOrder s → Lag s

theorem initial_tracked (hasBusy : Bool) : Tracked (initial hasBusy : Driver aw dw) where
  sound := initial_sound hasBusy
  regular r pending := by cases pending
  edge armed := by rcases armed with armed | armed <;> cases armed
  addr := initial_addrSide hasBusy
  data := initial_dataSide hasBusy
  lag _ := initial_lag hasBusy

/-- Between edges no cycle is added, and no thread is woken by the clock. -/
theorem step_cycles (s : Driver aw dw) (a : Action aw dw) (other : ∀ sig, a ≠ .posedge sig) :
    (s.step a).cycles = s.cycles ∧ (s.step a).sig = s.sig ∧
      ((s.step a).addrArmed = true → s.addrArmed = true) ∧ ((s.step a).dataArmed = true → s.dataArmed = true) := by
  have effect := step_effect s a
  generalize s.step a = s' at effect ⊢
  cases effect with
  | posedge sig => exact absurd rfl (other sig)
  | addrStay | addrLast | addrNext | addrError | addrRedrive | addrSecond =>
    exact ⟨rfl,rfl,nofun,id⟩
  | dataStay | dataOver | dataDrive | dataFirst | dataSecond => exact ⟨rfl,rfl,id,nofun⟩
  | _ => exact ⟨rfl,rfl,id,id⟩

theorem step_edge (s : Driver aw dw) (a : Action aw dw) (tracked : Tracked s) (lawful : Lawful s a)
    (spared : Spared s a) (armed : (s.step a).addrArmed = true ∨ (s.step a).dataArmed = true) :
    ∃ before c, Edge (s.step a) before c := by
  obtain ⟨_,made,members,_⟩ := step_made s a
  by_cases clock : ∃ sig, a = .posedge sig
  · obtain ⟨sig,rfl⟩ := clock
    have effect := step_effect s (.posedge sig)
    generalize s.step (.posedge sig) = s' at effect armed
    cases effect with
    | stutter => exact tracked.edge armed
    | posedge _ settled =>
      refine ⟨s.cycles,⟨s.vif,sig,s.presented⟩,rfl,rfl,tracked.regular,lawful,fun resp => (spared resp).1,
        fun first => ?_,fun listens waits => ?_,fun _ => rfl,fun h i data => ?_⟩
      · obtain ⟨_,_,h,i,data,more,_⟩ := spared_first lawful spared first
        exact ⟨h,i,data,more⟩
      · change s.addr = .wait at waits
        dsimp only at listens
        rw [waits] at listens
        cases listens
      · exact addrPops_known tracked.sound.objects
          (tracked.addr.beat h i (by rw [settled.1]; exact data)).1
  · have other (sig : Sig) (same : a = .posedge sig) : False := clock ⟨sig,same⟩
    obtain ⟨cycles,sig,addrArmed,dataArmed⟩ := step_cycles s a other
    obtain ⟨before,c,edge⟩ := tracked.edge (armed.imp addrArmed dataArmed)
    -- the address thread presents the same beat until it has looked at the edge
    have still (woken : (s.step a).addrArmed = true) :
        (s.step a).addr ≠ .wait ∧ (s.step a).presented = s.presented := by
      have works := edge.works (addrArmed woken)
      by_cases own : Own a
      · cases a with
        | posedge sig' => exact (other sig' rfl).elim
        | addrEdge opt =>
          have effect := step_effect s (.addrEdge opt)
          generalize s.step (.addrEdge opt) = s' at effect woken
          cases effect with
          | stutter => exact ⟨works,rfl⟩
          | _ => cases woken
        | addrGet =>
          have effect := step_effect s .addrGet
          generalize s.step .addrGet = s' at effect
          cases effect with
          | stutter => exact ⟨works,rfl⟩
          | addrSkip item rest waits | addrTake item rest waits => exact absurd waits works
        | _ => exact own.elim
      · have unnoticed := step_unnoticed s a tracked.sound.objects own
        exact ⟨by rw [unnoticed.thread.1]; exact works,presented_unnoticed tracked.sound.objects unnoticed⟩
    refine ⟨before,c,cycles.trans edge.cycles,edge.sig.trans sig.symm,edge.regular,edge.allowed,edge.granted,edge.early,
      fun woken => (still woken).1,fun woken => ?_,fun h i data => (members h).mpr (.inl (edge.inData h i data))⟩
    rw [(still woken).2]
    exact edge.shown (addrArmed woken)

theorem step_tracked (s : Driver aw dw) (a : Action aw dw) (tracked : Tracked s)
    (cond : Lawful s a ∧ Spared s a) : Tracked (s.step a) := by
  have edge := step_edge s a tracked cond.1 cond.2
  obtain ⟨sound,regular,edges,addr,data,lag⟩ := tracked
  have objects := sound.objects
  have addrEdge (armed : s.addrArmed = true) := edges (.inl armed)
  have dataEdge (armed : s.dataArmed = true) := edges (.inr armed)
  have inData (armed : s.dataArmed = true) (h : Handle aw dw) (k : Nat)
      (here : (seen s.dataArmed s.cycles).data = some (h,k)) : h ∈ s.objects := by
    obtain ⟨before,c,edge⟩ := dataEdge armed
    rw [armed,edge.cycles,seen_armed] at here
    exact edge.inData h k here
  have others (other : a = .addrGet ∨ (∃ req, a = .driveBus req) ∨ (∃ k, a = .pushAddr k) ∨ ∃ k, a = .pushData k) :
      DataSide (s.step a) ∧ (SameOrder (s.step a) → Lag (s.step a)) := by
    obtain ⟨frame,old,new⟩ := step_aside s a objects data other
    exact ⟨dataSide_aside objects frame data,fun same => lag_aside frame old new inData (lag same.before)⟩
  have regular' (other : ∀ sig, a ≠ .posedge sig) : (watch (s.step a).cycles).Regular := by
    rw [(step_cycles s a other).1]
    exact regular
  have sound' := step_sound s a sound
  cases a with
  | posedge sig =>
    have early (first : sig.first = true) : ∃ h i, (watch s.cycles).data = some (h,i) ∧ i < h.trx.bstLen := by
      obtain ⟨_,_,h,i,data,more,_⟩ := spared_first cond.1 cond.2 first
      exact ⟨h,i,data,more⟩
    refine ⟨sound',?_,edge,addrSide_posedge addr sig cond.1 early,dataSide_posedge sound addr data lag sig cond.1 cond.2,
      fun same => lag_posedge sound addr data (lag same.before) same.before sig⟩
    have effect := step_effect s (.posedge sig)
    generalize s.step (.posedge sig) = s' at effect
    cases effect with
    | stutter => exact regular
    | posedge =>
      dsimp only
      rw [watch_concat]
      exact Watch.next_regular _ _ cond.1
  | addrEdge opt =>
    have frame := step_addrEdge_aside s opt objects addr data addrEdge
    exact ⟨sound',regular' nofun,edge,addrSide_addrEdge objects addr addrEdge opt,dataSide_aside objects frame data,
      fun same => lag_addrEdge objects addr (lag same.before) addrEdge opt inData⟩
  | dataEdge =>
    exact ⟨sound',regular' nofun,edge,addrSide_unnoticed objects (step_unnoticed s _ objects id) addr,
      dataSide_dataEdge objects data dataEdge,fun same => lag_dataEdge objects addr data (lag same.before) dataEdge⟩
  | driveBus req =>
    obtain ⟨data',lag'⟩ := others (.inr (.inl ⟨req,rfl⟩))
    exact ⟨sound',regular' nofun,edge,addrSide_unnoticed objects (step_unnoticed s _ objects id) addr,data',lag'⟩
  | pushAddr k =>
    obtain ⟨data',lag'⟩ := others (.inr (.inr (.inl ⟨k,rfl⟩)))
    exact ⟨sound',regular' nofun,edge,addrSide_unnoticed objects (step_unnoticed s _ objects id) addr,data',lag'⟩
  | pushData k =>
    obtain ⟨data',lag'⟩ := others (.inr (.inr (.inr ⟨k,rfl⟩)))
    exact ⟨sound',regular' nofun,edge,addrSide_unnoticed objects (step_unnoticed s _ objects id) addr,data',lag'⟩
  | addrGet =>
    obtain ⟨data',lag'⟩ := others (.inl rfl)
    exact ⟨sound',regular' nofun,edge,addrSide_addrGet sound addr,data',lag'⟩
  | dataGet =>
    exact ⟨sound',regular' nofun,edge,addrSide_unnoticed objects (step_unnoticed s _ objects id) addr,
      dataSide_dataGet sound data,fun same => (lag_between data (lag same.before)).1⟩
  | dataSwap =>
    exact ⟨sound',regular' nofun,edge,addrSide_unnoticed objects (step_unnoticed s _ objects id) addr,
      dataSide_dataSwap addr data addrEdge regular,fun same => (lag_between data (lag same.before)).2⟩

theorem tracked_attributed {s : Driver aw dw} (tracked : Tracked s) : Attributed s := by
  obtain ⟨sound,_,edge,addr,data,_⟩ := tracked
  have known (h : Handle aw dw) (member : h ∈ s.taken) : h ∈ s.objects := List.mem_append_left _ member
  have answered (pair : Handle aw dw × TrxRsp) (member : pair ∈ s.charged) : pair ∈ (watch s.cycles).responses := by
    rw [addr.charged] at member
    cases armed : s.addrArmed with
    | false =>
      rw [armed] at member
      exact member
    | true =>
      obtain ⟨before,c,edge⟩ := edge (.inl armed)
      rw [armed,edge.cycles,seen_armed] at member
      rw [edge.cycles,watch_concat]
      exact List.mem_append_left _ member
  constructor
  · intro still
    have charged := addr.charged
    rw [still] at charged
    exact charged
  · exact fun h member r => ⟨addr.accounts.unmarked h member r,addr.accounts.marked h r⟩
  · exact data.closed
  · intro h member
    by_cases taken : h ∈ s.addrPops
    · rcases addr.accounts.pops h taken with ⟨phase,firsts,listens,_⟩ | ⟨_,all | ⟨r,charged⟩⟩
      · exact .inr (.inl (by rw [listens]; rfl))
      · exact .inr (.inr (.inl all))
      · exact .inr (.inr (.inr ⟨r,answered _ charged⟩))
    · left
      refine ⟨?_,(sound.fresh.addr h (known h member) taken).1⟩
      exact (List.mem_append.mp (sound.conserved.addr.mem_iff.mpr (known h member))).resolve_right taken
  · intro h member
    by_cases taken : h ∈ s.dataPops
    · rcases data.pops h taken with works | unclean
      · exact .inr (.inl works)
      · by_cases complete : (s.status h).dataComplete = true
        · rcases data.ended h taken complete with all | charged
          · exact .inr (.inr (.inl all))
          · exact .inr (.inr (.inr charged))
        · rw [Bool.not_eq_true] at complete
          have flagged : ∃ r, (s.status h).flag r = true := by
            by_contra none
            exact unclean ⟨complete,fun r => Bool.eq_false_iff.mpr fun flag => none ⟨r,flag⟩⟩
          obtain ⟨r,flag⟩ := flagged
          exact .inr (.inr (.inr ⟨r,answered _ (addr.accounts.unmarked h member r flag)⟩))
    · left
      refine ⟨?_,(sound.fresh.data h (known h member) taken).1⟩
      exact (List.mem_append.mp (sound.conserved.data.mem_iff.mpr (known h member))).resolve_right taken

/-- A write of two beats has an error in the data phase of the first; another write follows. -/
def earlyError : List (Action 8 8) :=
  arrive {single 0 1 with addrs := [4,8], dataBeat := [fun _ => 1,fun _ => 2], bstLen := 1} ++
    [.addrGet,.dataGet,.dataSwap] ++ arrive (single 0 2) ++
    [.posedge ⟨true,true,.okay⟩,.addrEdge true,.dataEdge,.posedge ⟨true,false,.error⟩,.dataEdge,.addrEdge true,
      .posedge ⟨true,true,.error⟩,.addrEdge true,.addrGet,.dataEdge,.dataGet,.dataSwap]

end Smtdv.Ahb.Driver
