import Yans.Apps.Bgrab

/-! At most one banner for a destination. Between two batches nothing has been
received on a connection that is open; a connection on which something is
received is in the queue for closing, in which there is room for every event of
a batch. -/
namespace Yans.Apps.Bgrab

open Library.Memory Library.Postconditions Library.Runs Net.Reaplan

variable {World Dst : Type} {net : Network World Dst} {opts : BgrabOpts}

/-! The calls that are logged -/

@[simp] theorem receivedFrom_append (ctx : Ctx World Dst) (k j : ℕ) (data : Bytes) :
    receivedFrom { ctx with received := ctx.received ++ [(j, data)] } k =
      receivedFrom ctx k ++ if j = k then [data] else [] := by
  unfold receivedFrom
  by_cases hj : j = k <;> simp [hj]

@[simp] theorem bannersOf_append (ctx : Ctx World Dst) (k j : ℕ) (banner : Bytes) :
    bannersOf { ctx with banners := ctx.banners ++ [(j, banner)] } k =
      bannersOf ctx k ++ if j = k then [banner] else [] := by
  unfold bannersOf
  by_cases hj : j = k <;> simp [hj]

/-- The destination of a connection that is open. Before anything is received
there is no banner, and what counts as sent has been sent to it. -/
structure Held (ctx : Ctx World Dst) (i k : ℕ) (dst : Dst) : Prop where
  udata : (ctx.conns i).udata = some (k, dst)
  taken : k < ctx.ntaken
  unread : (ctx.conns i).nread = 0 → receivedFrom ctx k = [] ∧ bannersOf ctx k = []
  sent : (ctx.conns i).nwritten > 0 → k ∈ ctx.sent

/-- The books when the slots in `live` are open: no two of them are for one
destination. -/
structure Books (live : ℕ → Prop) (ctx : Ctx World Dst) : Prop where
  banners : ∀ k, OneBanner ctx k
  fresh : ∀ k, ctx.ntaken ≤ k → receivedFrom ctx k = []
  held : ∀ i, live i → ∃ k dst, Held ctx i k dst
  apart : ∀ i j k dst dst', live i → live j → (ctx.conns i).udata = some (k, dst) →
    (ctx.conns j).udata = some (k, dst') → i = j

structure SameBooks (ctx ctx' : Ctx World Dst) : Prop where
  ntaken : ctx'.ntaken = ctx.ntaken
  conns : ctx'.conns = ctx.conns
  received : ctx'.received = ctx.received
  sent : ctx'.sent = ctx.sent
  banners : ctx'.banners = ctx.banners

variable {ctx ctx' : Ctx World Dst}

theorem SameBooks.bannersOf (h : SameBooks ctx ctx') (k : ℕ) :
    bannersOf ctx' k = bannersOf ctx k := by
  unfold Bgrab.bannersOf
  rw [h.banners]

theorem SameBooks.receivedFrom (h : SameBooks ctx ctx') (k : ℕ) :
    receivedFrom ctx' k = receivedFrom ctx k := by
  unfold Bgrab.receivedFrom
  rw [h.received]

theorem Books.of_same {live : ℕ → Prop} (h : Books live ctx)
    (hsame : SameBooks ctx ctx') : Books live ctx' := by
  refine ⟨fun k => ?_, fun k hk => ?_, fun i hi => ?_, ?_⟩
  · obtain ⟨honce, hreceived, hempty, htaken⟩ := h.banners k
    rw [← hsame.bannersOf] at honce hreceived hempty htaken
    rw [← hsame.receivedFrom] at hreceived hempty
    rw [← hsame.sent] at hempty
    rw [← hsame.ntaken] at htaken
    exact ⟨honce, hreceived, hempty, htaken⟩
  · rw [hsame.receivedFrom]
    exact h.fresh k (hsame.ntaken ▸ hk)
  · obtain ⟨k, dst, hudata, htaken, hunread, hsent⟩ := h.held i hi
    refine ⟨k, dst, ?_, ?_, ?_, ?_⟩
    · rwa [hsame.conns]
    · rwa [hsame.ntaken]
    · rwa [hsame.conns, hsame.receivedFrom, hsame.bannersOf]
    · rwa [hsame.conns, hsame.sent]
  · rw [hsame.conns]
    exact h.apart

theorem Books.mono {live live' : ℕ → Prop} {ctx : Ctx World Dst} (h : Books live ctx)
    (hless : ∀ i, live' i → live i) : Books live' ctx :=
  ⟨h.banners, h.fresh, fun i hi => h.held i (hless i hi),
    fun i j k dst dst' hi hj => h.apart i j k dst dst' (hless i hi) (hless j hj)⟩

theorem OneBanner.of_none {k : ℕ} (hreceived : receivedFrom ctx k = [])
    (hbanners : bannersOf ctx k = []) : OneBanner ctx k := by
  refine ⟨?_, fun h => absurd hreceived h, ?_, fun h => absurd hbanners h⟩
  · rw [hbanners]
    exact Nat.zero_le 1
  · rw [hbanners]
    exact nofun

variable {i : ℕ}

theorem writeBanner_of_udata {k : ℕ} {dst : Dst}
    (hudata : (ctx.conns i).udata = some (k, dst)) (banner : Bytes) :
    writeBanner i banner ctx = { ctx with banners := ctx.banners ++ [(k, banner)] } := by
  unfold writeBanner
  rw [hudata]

theorem Books.ne {live : ℕ → Prop} (h : Books live ctx) {j k k' : ℕ}
    {dst dst' : Dst} (hi : live i) (hj : live j) (hij : j ≠ i)
    (hk : (ctx.conns i).udata = some (k, dst)) (hk' : (ctx.conns j).udata = some (k', dst')) :
    k ≠ k' := by
  rintro rfl
  exact hij (h.apart j i k dst' dst hj hi hk' hk)

theorem Books.onDone {live : ℕ → Prop} (h : Books live ctx)
    (hi : live i) : Books (fun j => live j ∧ j ≠ i) (onDone i ctx) ∧
      (onDone i ctx).conns = ctx.conns := by
  unfold Bgrab.onDone
  split
  · rename_i hempty
    obtain ⟨k, dst, hudata, htaken, hunread, hsent⟩ := h.held i hi
    obtain ⟨hreceived, hbanners⟩ := hunread hempty.2
    rw [writeBanner_of_udata hudata]
    refine ⟨⟨fun l => ?_, h.fresh, ?_, ?_⟩, rfl⟩
    · by_cases hl : k = l
      · subst hl
        refine ⟨?_, fun hsome => absurd hreceived hsome, fun _ => ⟨hsent hempty.1, hreceived⟩,
          fun _ => htaken⟩
        rw [bannersOf_append, hbanners, if_pos rfl]
        exact le_refl 1
      · obtain ⟨honce, hreceived, hempty, htaken⟩ := h.banners l
        have hsame := bannersOf_append ctx l k []
        rw [if_neg hl, List.append_nil] at hsame
        exact ⟨hsame ▸ honce, hsame ▸ hreceived, hsame ▸ hempty, hsame ▸ htaken⟩
    · rintro j ⟨hj, hij⟩
      obtain ⟨k', dst', hudata', htaken', hunread', hsent'⟩ := h.held j hj
      refine ⟨k', dst', hudata', htaken', fun hzero => ?_, hsent'⟩
      rw [bannersOf_append, if_neg (h.ne hi hj hij hudata hudata'), List.append_nil]
      exact hunread' hzero
    · rintro j j' l d d' ⟨hj, -⟩ ⟨hj', -⟩
      exact h.apart j j' l d d' hj hj'
  · exact ⟨h.mono fun j hj => hj.1, rfl⟩

theorem Books.setConn {live : ℕ → Prop} (h : Books live ctx)
    {conn : Conn Dst} (hudata : conn.udata = (ctx.conns i).udata)
    (hunread : conn.nread = 0 → (ctx.conns i).nread = 0)
    (hsent : ∀ k dst, conn.udata = some (k, dst) → conn.nwritten > 0 → k ∈ ctx.sent) :
    Books live (setConn i conn ctx) := by
  have hconns : ∀ j, ((Bgrab.setConn i conn ctx).conns j).udata = (ctx.conns j).udata := by
    intro j
    by_cases hj : j = i
    · rw [hj, conns_setConn_self, hudata]
    · rw [conns_setConn_of_ne hj]
  refine ⟨?_, h.fresh, fun j hj => ?_, ?_⟩
  · intro k
    obtain ⟨honce, hreceived, hempty, htaken⟩ := h.banners k
    exact ⟨honce, hreceived, hempty, htaken⟩
  · obtain ⟨k, dst, hk, htaken, hzero, hwritten⟩ := h.held j hj
    by_cases hij : j = i
    · subst hij
      refine ⟨k, dst, (hconns j).trans hk, htaken, ?_, ?_⟩
      · rw [conns_setConn_self]
        exact fun hnone => hzero (hunread hnone)
      · rw [conns_setConn_self]
        exact hsent k dst (hudata.trans hk)
    · have hother := conns_setConn_of_ne hij conn ctx
      exact ⟨k, dst, (hconns j).trans hk, htaken, hother ▸ hzero, hother ▸ hwritten⟩
  · intro j j' k dst dst' hj hj' hk hk'
    rw [hconns] at hk hk'
    exact h.apart j j' k dst dst' hj hj' hk hk'

theorem Books.answered {live : ℕ → Prop} {ctx : Ctx World Dst} (h : Books live ctx) {i k : ℕ}
    {dst : Dst} (hi : live i) (hk : Held ctx i k dst) (hzero : (ctx.conns i).nread = 0)
    {byte : UInt8} {data : Bytes} {nread : UInt32} (hnread : nread ≠ 0) :
    Books live (Bgrab.setConn i { ctx.conns i with nread := nread }
      { ctx with
        received := ctx.received ++ [(k, byte :: data)]
        banners := ctx.banners ++ [(k, byte :: data)] }) := by
  obtain ⟨hreceived, hbanners⟩ := hk.unread hzero
  generalize hctx' : (Bgrab.setConn i { ctx.conns i with nread := nread }
      { ctx with
        received := ctx.received ++ [(k, byte :: data)]
        banners := ctx.banners ++ [(k, byte :: data)] }) = ctx'
  have hreceived' : ∀ l, receivedFrom ctx' l =
      receivedFrom ctx l ++ if k = l then [byte :: data] else [] := by
    intro l
    rw [← hctx', ← receivedFrom_append]
    rfl
  have hbanners' : ∀ l, bannersOf ctx' l =
      bannersOf ctx l ++ if k = l then [byte :: data] else [] := by
    intro l
    rw [← hctx', ← bannersOf_append]
    rfl
  have hself : ctx'.conns i = { ctx.conns i with nread := nread } := by
    rw [← hctx', conns_setConn_self]
  have hother : ∀ j ≠ i, ctx'.conns j = ctx.conns j := by
    intro j hj
    rw [← hctx', conns_setConn_of_ne hj]
  have htaken : ctx'.ntaken = ctx.ntaken := by rw [← hctx']; rfl
  have hsent : ctx'.sent = ctx.sent := by rw [← hctx']; rfl
  have hudata : ∀ j, (ctx'.conns j).udata = (ctx.conns j).udata := by
    intro j
    by_cases hj : j = i
    · rw [hj, hself]
    · rw [hother j hj]
  refine ⟨fun l => ?_, fun l hl => ?_, fun j hj => ?_, ?_⟩
  · by_cases hl : k = l
    · subst hl
      have hone : bannersOf ctx' k = [byte :: data] := by
        rw [hbanners', hbanners, if_pos rfl, List.nil_append]
      have hall : receivedFrom ctx' k = [byte :: data] := by
        rw [hreceived', hreceived, if_pos rfl, List.nil_append]
      refine ⟨?_, fun _ => ?_, fun hempty => ?_, fun _ => htaken ▸ hk.taken⟩
      · rw [hone]
        exact le_refl 1
      · rw [hone, hall, List.flatten_singleton]
      · rw [hone, List.mem_singleton] at hempty
        cases hempty
    · obtain ⟨honce, hfull, hempty, hnumber⟩ := h.banners l
      have hsameb : bannersOf ctx' l = bannersOf ctx l := by
        rw [hbanners', if_neg hl, List.append_nil]
      have hsamer : receivedFrom ctx' l = receivedFrom ctx l := by
        rw [hreceived', if_neg hl, List.append_nil]
      rw [← hsameb] at honce hfull hempty hnumber
      rw [← hsamer] at hfull hempty
      exact ⟨honce, hfull, hsent ▸ hempty, htaken ▸ hnumber⟩
  · have hl : ctx.ntaken ≤ l := htaken ▸ hl
    have hne : k ≠ l := (hk.taken.trans_le hl).ne
    rw [hreceived', if_neg hne, List.append_nil]
    exact h.fresh l hl
  · by_cases hij : j = i
    · subst hij
      refine ⟨k, dst, (hudata j).trans hk.udata, htaken ▸ hk.taken, ?_, ?_⟩
      · rw [hself]
        exact fun hnone => absurd hnone hnread
      · rw [hself, hsent]
        exact hk.sent
    · obtain ⟨k', dst', hk', htaken', hunread', hsent'⟩ := h.held j hj
      have hne : k ≠ k' := h.ne hi hj hij hk.udata hk'
      refine ⟨k', dst', (hudata j).trans hk', htaken ▸ htaken', ?_, ?_⟩
      · rw [hother j hij, hreceived', hbanners', if_neg hne, List.append_nil, List.append_nil]
        exact hunread'
      · rw [hother j hij, hsent]
        exact hsent'
  · intro j j' l d d' hj hj' hd hd'
    rw [hudata] at hd hd'
    exact h.apart j j' l d d' hj hj' hd hd'

theorem Books.onReadable (laws : net.Lawful opts) {live : ℕ → Prop}
    (h : Books live ctx) (hi : live i) (hzero : (ctx.conns i).nread = 0) :
    Books live (onReadable net i ctx).2 ∧
      (∀ j ≠ i, (onReadable net i ctx).2.conns j = ctx.conns j) ∧
      (((onReadable net i ctx).2.conns i).nread ≠ 0 → (onReadable net i ctx).1.ret = 0) := by
  obtain ⟨k, dst, hk⟩ := h.held i hi
  cases hread : net.read i ctx.net with
  | mk received n =>
    have hsame : SameBooks ctx { ctx with net := n } := ⟨rfl, rfl, rfl, rfl, rfl⟩
    cases received with
    | failed again =>
      have heq : Bgrab.onReadable net i ctx = (⟨-1, again⟩, { ctx with net := n }) := by
        simp [Bgrab.onReadable, reaplanConnRead, hread]
      rw [heq]
      exact ⟨h.of_same hsame, fun _ _ => rfl, fun hread => absurd hzero hread⟩
    | bytes data =>
      cases data with
      | nil =>
        have heq : Bgrab.onReadable net i ctx = (⟨0, false⟩, { ctx with net := n }) := by
          simp [Bgrab.onReadable, reaplanConnRead, hread]
        rw [heq]
        exact ⟨h.of_same hsame, fun _ _ => rfl, fun _ => rfl⟩
      | cons byte data =>
        have hlength := laws.read_length hread
        rw [List.length_cons] at hlength
        have hnonzero : (ctx.conns i).nread + UInt32.ofNat (data.length + 1) ≠ 0 := by
          intro hnone
          rw [hzero, UInt32.zero_add] at hnone
          have hvalue := congrArg UInt32.toNat hnone
          have hsize : recvbufSize = 8192 := rfl
          rw [UInt32.toNat_ofNat', Nat.mod_eq_of_lt (by omega)] at hvalue
          exact absurd hvalue (Nat.succ_ne_zero _)
        have heq : Bgrab.onReadable net i ctx = (⟨0, false⟩,
            Bgrab.setConn i
              { ctx.conns i with
                nread := (ctx.conns i).nread + UInt32.ofNat (data.length + 1) }
              { ctx with
                received := ctx.received ++ [(k, byte :: data)]
                banners := ctx.banners ++ [(k, byte :: data)]
                net := n }) := by
          simp [Bgrab.onReadable, reaplanConnRead, hread, hk.udata, writeBanner, Bgrab.setConn]
        rw [heq]
        refine ⟨?_, fun j hj => conns_setConn_of_ne hj _ _, fun _ => rfl⟩
        exact (h.of_same hsame).answered hi ⟨hk.udata, hk.taken, hk.unread, hk.sent⟩ hzero hnonzero

theorem Books.sendMore {live : ℕ → Prop} (h : Books live ctx)
    (more : List ℕ) : Books live { ctx with sent := ctx.sent ++ more } := by
  refine ⟨fun k => ?_, h.fresh, fun i hi => ?_, h.apart⟩
  · obtain ⟨honce, hreceived, hempty, htaken⟩ := h.banners k
    exact ⟨honce, hreceived, fun hnone => ⟨List.mem_append_left _ (hempty hnone).1,
      (hempty hnone).2⟩, htaken⟩
  · obtain ⟨k, dst, hudata, htaken, hunread, hsent⟩ := h.held i hi
    exact ⟨k, dst, hudata, htaken, hunread, fun hwritten =>
      List.mem_append_left _ (hsent hwritten)⟩

theorem Books.onWritable {live : ℕ → Prop} {ctx : Ctx World Dst} (h : Books live ctx) {i : ℕ}
    (hi : live i) : Books live (onWritable net i ctx).2 ∧
      ∀ j, ((onWritable net i ctx).2.conns j).nread = (ctx.conns j).nread := by
  obtain ⟨k, dst, hk⟩ := h.held i hi
  unfold Bgrab.onWritable
  rw [hk.udata]
  dsimp only
  cases hpayload : net.payload dst ctx.net with
  | mk data rest =>
    obtain ⟨again, n⟩ := rest
    cases data with
    | none => exact ⟨h.of_same ⟨rfl, rfl, rfl, rfl, rfl⟩, fun _ => rfl⟩
    | some data =>
      dsimp only
      unfold reaplanConnWrite
      cases hsend : net.send i data n with
      | mk reply n' =>
        have hsame : SameBooks ctx { ctx with net := n' } := ⟨rfl, rfl, rfl, rfl, rfl⟩
        dsimp only
        split
        · rw [hk.udata]
          refine ⟨?_, fun j => ?_⟩
          · refine ((h.of_same hsame).sendMore [k]).setConn hk.udata.symm (fun hnone => hnone) ?_
            intro l d hl _
            obtain ⟨rfl, -⟩ := Prod.mk.inj (Option.some.inj hl)
            exact List.mem_append_right _ List.mem_cons_self
          · by_cases hj : j = i
            · rw [hj, conns_setConn_self]
            · rw [conns_setConn_of_ne hj]
        · exact ⟨h.of_same hsame, fun _ => rfl⟩

theorem Books.take {live : ℕ → Prop} (h : Books live ctx)
    (hi : ¬ live i) (hread : (ctx.conns i).nread = 0) (hwritten : (ctx.conns i).nwritten = 0)
    (dst : Dst) (dsts : List Dst) :
    Books (fun j => live j ∨ j = i) (takeDst i dst dsts ctx) := by
  have hself : ((takeDst i dst dsts ctx).conns i) =
      { ctx.conns i with udata := some (ctx.ntaken, dst) } := conns_setConn_self ..
  have hother : ∀ j, live j → (takeDst i dst dsts ctx).conns j = ctx.conns j := by
    intro j hj
    exact conns_setConn_of_ne (fun heq : j = i => hi (heq ▸ hj)) _ _
  refine ⟨fun k => ?_, fun k hk => h.fresh k (Nat.le_of_succ_le hk), ?_, ?_⟩
  · obtain ⟨honce, hreceived, hempty, htaken⟩ := h.banners k
    exact ⟨honce, hreceived, hempty, fun hsome => Nat.lt_succ_of_lt (htaken hsome)⟩
  · rintro j (hj | rfl)
    · obtain ⟨k, d, hudata, htaken, hunread, hsent⟩ := h.held j hj
      rw [← hother j hj] at hudata hunread hsent
      exact ⟨k, d, hudata, Nat.lt_succ_of_lt htaken, hunread, hsent⟩
    · refine ⟨ctx.ntaken, dst, congrArg Conn.udata hself, Nat.lt_succ_self _, fun _ => ?_, ?_⟩
      · refine ⟨h.fresh _ (le_refl _), ?_⟩
        by_contra hsome
        exact absurd ((h.banners _).taken hsome) (lt_irrefl _)
      · rw [hself]
        intro hsome
        rw [hwritten] at hsome
        exact absurd hsome (by decide)
  · have hnew : ∀ j k d, live j → ((takeDst i dst dsts ctx).conns j).udata = some (k, d) →
        k < ctx.ntaken := by
      intro j k d hj hk
      obtain ⟨k', d', hudata, htaken, -⟩ := h.held j hj
      rw [hother j hj, hudata] at hk
      exact (Prod.mk.inj (Option.some.inj hk)).1 ▸ htaken
    have hlast : ∀ k d, ((takeDst i dst dsts ctx).conns i).udata = some (k, d) →
        k = ctx.ntaken := by
      intro k d hk
      rw [hself] at hk
      exact (Prod.mk.inj (Option.some.inj hk)).1.symm
    rintro j j' k d d' (hj | rfl) (hj' | rfl) hk hk'
    · rw [hother j hj] at hk
      rw [hother j' hj'] at hk'
      exact h.apart j j' k d d' hj hj' hk hk'
    · exact absurd (hlast k d' hk') (hnew j k d hj hk).ne
    · exact absurd (hlast k d hk) (hnew j' k d' hj' hk').ne
    · rfl

theorem onDone_of_unwritten (h : (ctx.conns i).nwritten = 0) :
    onDone i ctx = ctx := by
  unfold onDone
  rw [if_neg]
  rw [h]
  exact fun hsome => absurd hsome.1 (by decide)

structure Connects (live : ℕ → Prop) (i : ℕ) (ctx : Ctx World Dst)
    (result : Connected × Ctx World Dst) : Prop where
  closed : Books live result.2
  others : ∀ j ≠ i, result.2.conns j = ctx.conns j
  code : 0 ≤ result.1.fd → result.1.code = reaplancOk
  opened : 0 ≤ result.1.fd →
    Books (fun j => live j ∨ j = i) result.2 ∧ (result.2.conns i).nread = 0

/-- The induction is on the destinations that are left. -/
theorem connectLoop_connects {live : ℕ → Prop} {i : ℕ} (hi : ¬ live i) (dsts : List Dst) :
    ∀ ctx : Ctx World Dst, Books live ctx → (ctx.conns i).nread = 0 → (ctx.conns i).nwritten = 0 →
      Connects live i ctx (connectLoop net opts i dsts ctx) := by
  have hnofd : ¬ 0 ≤ (-1 : ℤ) := by decide
  induction dsts with
  | nil =>
    exact fun ctx h _ _ => ⟨h, fun _ _ => rfl, fun hfd => absurd hfd hnofd,
      fun hfd => absurd hfd hnofd⟩
  | cons dst dsts ih =>
    intro ctx h hread hwritten
    have htake := h.take hi hread hwritten dst dsts
    have hconns : ∀ j ≠ i, (takeDst i dst dsts ctx).conns j = ctx.conns j :=
      fun j hj => conns_setConn_of_ne hj _ _
    have hself : (takeDst i dst dsts ctx).conns i =
        { ctx.conns i with udata := some (ctx.ntaken, dst) } := conns_setConn_self ..
    -- a destination that is given up again: nothing has been sent to it
    have hnext : ∀ n, Connects live i ctx (connectLoop net opts i dsts
        (onDone i { takeDst i dst dsts ctx with net := n })) := by
      intro n
      have hdone : onDone i { takeDst i dst dsts ctx with net := n } =
          { takeDst i dst dsts ctx with net := n } := by
        apply onDone_of_unwritten
        exact (congrArg Conn.nwritten hself).trans hwritten
      rw [hdone]
      obtain ⟨hclosed, hothers, hcode, hopened⟩ := ih { takeDst i dst dsts ctx with net := n }
        ((htake.mono fun j hj => .inl hj).of_same ⟨rfl, rfl, rfl, rfl, rfl⟩)
        ((congrArg Conn.nread hself).trans hread) ((congrArg Conn.nwritten hself).trans hwritten)
      exact ⟨hclosed, fun j hj => (hothers j hj).trans (hconns j hj), hcode, hopened⟩
    have hdone : ∀ n (fd : ℤ), Connects live i ctx
        (⟨reaplancOk, fd, true, true, opts.sslCtx⟩, { takeDst i dst dsts ctx with net := n }) := by
      intro n fd
      have hopen : Books (fun j => live j ∨ j = i) { takeDst i dst dsts ctx with net := n } :=
        htake.of_same ⟨rfl, rfl, rfl, rfl, rfl⟩
      exact ⟨hopen.mono fun j hj => .inl hj, hconns, fun _ => rfl,
        fun _ => ⟨hopen, (congrArg Conn.nread hself).trans hread⟩⟩
    rw [connectLoop]
    dsimp only
    split
    · exact hnext _
    · unfold reaplanRegisterConn
      split
      · dsimp only
        split
        · exact hnext _
        · exact hdone _ _
      · exact hdone _ _

theorem onConnect_connects {live : ℕ → Prop} {i : ℕ} {ctx : Ctx World Dst} (h : Books live ctx) :
    Connects (fun j => live j ∧ j ≠ i) i ctx (onConnect net opts i ctx) := by
  have hclear : Books (fun j => live j ∧ j ≠ i) (Bgrab.setConn i ⟨none, 0, 0⟩ ctx) := by
    have hother : ∀ j ≠ i, (Bgrab.setConn i ⟨none, 0, 0⟩ ctx).conns j = ctx.conns j :=
      fun j hj => conns_setConn_of_ne hj _ _
    refine ⟨fun k => ?_, h.fresh, ?_, ?_⟩
    · obtain ⟨honce, hreceived, hempty, htaken⟩ := h.banners k
      exact ⟨honce, hreceived, hempty, htaken⟩
    · rintro j ⟨hj, hij⟩
      obtain ⟨k, dst, hudata, htaken, hunread, hsent⟩ := h.held j hj
      rw [← hother j hij] at hudata hunread hsent
      exact ⟨k, dst, hudata, htaken, hunread, hsent⟩
    · rintro j j' k dst dst' ⟨hj, hij⟩ ⟨hj', hij'⟩ hk hk'
      rw [hother j hij] at hk
      rw [hother j' hij'] at hk'
      exact h.apart j j' k dst dst' hj hj' hk hk'
  obtain ⟨hclosed, hothers, hcode, hopened⟩ := @connectLoop_connects _ _ net opts _ i
    (fun hi => hi.2 rfl) ctx.dsts _ hclear (by rw [conns_setConn_self]) (by rw [conns_setConn_self])
  exact ⟨hclosed, fun j hj => (hothers j hj).trans (conns_setConn_of_ne hj _ _), hcode, hopened⟩

def Live (s : State (Ctx World Dst)) (i : ℕ) : Prop := 0 ≤ (s.ctx.conns i).fd

structure Settled (s : State (Ctx World Dst)) : Prop where
  books : Books (Live s) s.world
  unread : ∀ i, Live s i → (s.world.conns i).nread = 0

structure SameSlots (s s' : State (Ctx World Dst)) : Prop where
  fd : ∀ i, (s'.ctx.conns i).fd = (s.ctx.conns i).fd
  books : SameBooks s.world s'.world

theorem SameBooks.refl (ctx : Ctx World Dst) : SameBooks ctx ctx := ⟨rfl, rfl, rfl, rfl, rfl⟩

theorem SameBooks.trans {ctx'' : Ctx World Dst} (h : SameBooks ctx ctx')
    (h' : SameBooks ctx' ctx'') : SameBooks ctx ctx'' :=
  ⟨h'.ntaken.trans h.ntaken, h'.conns.trans h.conns, h'.received.trans h.received,
    h'.sent.trans h.sent, h'.banners.trans h.banners⟩

theorem SameSlots.refl (s : State (Ctx World Dst)) : SameSlots s s := ⟨fun _ => rfl, .refl _⟩

variable {s s' : State (Ctx World Dst)}

theorem SameSlots.trans {s'' : State (Ctx World Dst)} (h : SameSlots s s')
    (h' : SameSlots s' s'') : SameSlots s s'' :=
  ⟨fun i => (h'.fd i).trans (h.fd i), h.books.trans h'.books⟩

theorem SameSlots.live (h : SameSlots s s') : Live s' = Live s := by
  funext i
  unfold Live
  rw [h.fd i]

theorem SameSlots.setConn (s : State (Ctx World Dst)) {conn : ReaplanConn}
    (hfd : conn.fd = (s.ctx.conns i).fd) : SameSlots s (Net.Reaplan.setConn i conn s) := by
  refine ⟨fun j => ?_, .refl _⟩
  by_cases hj : j = i
  · subst hj
    simp [Net.Reaplan.setConn, hfd]
  · simp [Net.Reaplan.setConn, hj]

theorem Settled.of_same (h : Settled s) (hsame : SameSlots s s') :
    Settled s' := by
  refine ⟨?_, ?_⟩
  · rw [hsame.live]
    exact h.books.of_same hsame.books
  · rw [hsame.live, hsame.books.conns]
    exact h.unread

theorem live_reaplanConnClose (i j : ℕ) (s : State (Ctx World Dst)) :
    Live (reaplanConnClose (callbacks net opts) (rpopts opts) i s) j ↔ Live s j ∧ j ≠ i := by
  unfold Live
  rw [reaplanConnClose_fd]
  by_cases hj : j = i
  · simp [hj]
  · simp [hj]

theorem reaplanConnClose_books {s : State (Ctx World Dst)} (h : Books (Live s) s.world) {i : ℕ}
    (hi : Live s i) :
    let after := reaplanConnClose (callbacks net opts) (rpopts opts) i s
    Books (Live after) after.world ∧ after.world.conns = s.world.conns := by
  obtain ⟨hbooks, hconns⟩ := h.onDone hi
  exact ⟨hbooks.mono fun j hj => (live_reaplanConnClose i j s).mp hj, hconns⟩

theorem Settled.reaplanConnClose (h : Settled s)
    (hi : Live s i) : Settled (reaplanConnClose (callbacks net opts) (rpopts opts) i s) := by
  obtain ⟨hbooks, hconns⟩ := @reaplanConnClose_books _ _ net opts _ h.books i hi
  refine ⟨hbooks, fun j hj => ?_⟩
  rw [hconns]
  exact h.unread j ((live_reaplanConnClose i j s).mp hj).1

/-- The induction is on the queue. -/
theorem closeQueue_settled (queue : List ℕ) : ∀ s : State (Ctx World Dst),
    Books (Live s) s.world → queue.Nodup → (∀ i ∈ queue, Live s i) →
    (∀ i, Live s i → (s.world.conns i).nread ≠ 0 → i ∈ queue) →
    Settled (queue.foldl
      (fun s i => Net.Reaplan.reaplanConnClose (callbacks net opts) (rpopts opts) i s) s) := by
  induction queue with
  | nil =>
    intro s h _ _ hqueued
    refine ⟨h, fun i hi => ?_⟩
    by_contra hread
    cases hqueued i hi hread
  | cons i queue ih =>
    intro s h hnodup hopen hqueued
    rw [List.nodup_cons] at hnodup
    obtain ⟨hbooks, hconns⟩ := @reaplanConnClose_books _ _ net opts _ h i
      (hopen i List.mem_cons_self)
    refine ih _ hbooks hnodup.2 (fun j hj => ?_) fun j hj hread => ?_
    · exact (live_reaplanConnClose i j s).mpr ⟨hopen j (List.mem_cons_of_mem _ hj),
        fun heq => hnodup.1 (heq ▸ hj)⟩
    · obtain ⟨hj, hij⟩ := (live_reaplanConnClose i j s).mp hj
      rw [hconns] at hread
      exact (List.mem_cons.mp (hqueued j hj hread)).resolve_left hij

theorem Settled.closeIf (h : Settled s) {p : Prop} [Decidable p]
    (hlive : p → Live s i) :
    Settled (if p then Net.Reaplan.reaplanConnClose (callbacks net opts) (rpopts opts) i s else s) := by
  split
  · rename_i hp
    exact h.reaplanConnClose (hlive hp)
  · exact h

theorem Settled.closeExpired (h : Settled s) (now : ℤ) :
    Settled (closeExpired (callbacks net opts) (rpopts opts) now s) := by
  refine List.foldlRecOn _ _ h fun s h i _ => ?_
  apply h.closeIf
  exact fun hexpired => hexpired.2.1

theorem Settled.checkExpired {s : State (Ctx World Dst)} (h : Settled s) :
    Settled (checkExpired (callbacks net opts) (rpopts opts) s) := by
  have hclock : Settled { s with world := ((callbacks net opts).clock s.world).2 } :=
    h.of_same ⟨fun _ => rfl, ⟨rfl, rfl, rfl, rfl, rfl⟩⟩
  unfold Net.Reaplan.checkExpired
  split
  · dsimp only
    split
    · exact (hclock.closeExpired _).of_same ⟨fun _ => rfl, .refl _⟩
    · exact hclock
  · exact h

theorem evSet_slots (index : ℕ) (ev : Kevent) (s : State (Ctx World Dst)) :
    Ends (fun _ => True) (SameSlots s) (evSet index ev s) := by
  unfold evSet
  split
  · exact ⟨fun _ => rfl, .refl _⟩
  · trivial

theorem Settled.updateTimer (h : Settled s) :
    Ends (fun _ => True) (fun result => Settled result.2)
      (reaplanUpdateTimer (callbacks net opts) (rpopts opts) s) := by
  have hchecked := @Settled.checkExpired _ _ net opts _ h
  have hstart : ∀ ev, Ends (fun _ => True) (fun result : Bool × State (Ctx World Dst) =>
      Settled result.2) (do
        let s ← evSet 0 ev (Net.Reaplan.checkExpired (callbacks net opts) (rpopts opts) s)
        return (true, { s with ctx := { s.ctx with timerActive := true } })) := by
    intro ev
    refine Ends.bind (evSet_slots 0 ev _) fun after hsame => ?_
    exact hchecked.of_same (hsame.trans ⟨fun _ => rfl, .refl _⟩)
  unfold reaplanUpdateTimer
  split
  · exact h
  · dsimp only
    split
    · exact hstart _
    · split
      · exact hchecked
      · exact hstart _

theorem addEvent_slots (requested : Bool) (index : ℕ) (ev : Kevent) (s : State (Ctx World Dst)) :
    Ends (fun _ => True) (fun result => SameSlots s result.2) (addEvent requested index ev s) := by
  unfold addEvent
  split
  · have hset := evSet_slots index ev s
    cases hresult : evSet index ev s with
    | ok after => exact hset.of_ok hresult
    | error fault => trivial
  · exact .refl s

theorem setEvents_slots (index i : ℕ) (s : State (Ctx World Dst)) :
    Ends (fun _ => True) (fun result => SameSlots s result.2) (setEvents index i s) := by
  unfold setEvents
  dsimp only
  generalize hflags : (if (s.ctx.conns i).ssl = true then _ else _ : ConnFlags) = flags
  have hset : SameSlots s (Net.Reaplan.setConn i { s.ctx.conns i with flags := flags } s) :=
    .setConn s rfl
  refine Ends.bind (addEvent_slots _ _ _ _) ?_
  rintro ⟨next, s'⟩ hread
  exact (addEvent_slots _ _ _ _).mono fun result hwrite => (hset.trans hread).trans hwrite

theorem Settled.connectSlot {id : ℕ} {ids : Util.Idset.IdsetCtx}
    {connected : Connected} (h : Settled s)
    (hconnect : connectSlot (callbacks net opts) id (setIds ids s) = (connected, s')) :
    Settled s' ∧ (0 ≤ connected.fd → connected.code = reaplancOk ∧ Live s' id) := by
  obtain ⟨hclosed, hothers, hcode, hopened⟩ := @onConnect_connects _ _ net opts _ id _ h.books
  have hslot := connectSlot_spec (callbacks net opts) id (setIds ids s)
  simp only [hconnect] at hslot
  obtain ⟨hreply, -, hfd, hother, -⟩ := hslot
  have hworld : s'.world = (onConnect net opts id s.world).2 :=
    congrArg (fun result => result.2.world) hconnect.symm
  have hreply : connected = (onConnect net opts id s.world).1 := hreply
  rw [← hreply] at hcode hopened
  rw [← hworld] at hclosed hothers hopened
  have hlive : ∀ j ≠ id, (Live s' j ↔ Live s j) := by
    intro j hj
    unfold Live
    rw [hother j hj]
    exact Iff.rfl
  have hunread : ∀ j ≠ id, Live s' j → (s'.world.conns j).nread = 0 := by
    intro j hj hopen
    rw [hothers j hj]
    exact h.unread j ((hlive j hj).mp hopen)
  by_cases hopen : 0 ≤ connected.fd
  · obtain ⟨hbooks, hzero⟩ := hopened hopen
    refine ⟨⟨hbooks.mono fun j hj => ?_, fun j hj => ?_⟩, fun _ => ⟨hcode hopen, ?_⟩⟩
    · by_cases hid : j = id
      · exact .inr hid
      · exact .inl ⟨(hlive j hid).mp hj, hid⟩
    · by_cases hid : j = id
      · rw [hid, hzero]
      · exact hunread j hid hj
    · unfold Live
      rw [hfd]
      exact hopen
  · have hne : ∀ j, Live s' j → j ≠ id := by
      rintro j hj rfl
      unfold Live at hj
      rw [hfd] at hj
      exact hopen hj
    refine ⟨⟨hclosed.mono fun j hj => ?_, fun j hj => hunread j (hne j hj) hj⟩,
      fun hfd => absurd hfd hopen⟩
    exact ⟨(hlive j (hne j hj)).mp hj, hne j hj⟩

/-- The induction is on the rounds. -/
theorem setupConnections_settled (base «end» : ℕ) (expires : ℤ) (rounds : ℕ) :
    ∀ {i : ℕ} {result : ℤ} {s : State (Ctx World Dst)}, Settled s →
      Ends (fun _ => True) (fun after => Settled after.2.2)
        (setupConnections (callbacks net opts) (rpopts opts) base «end» expires rounds i result
          s) := by
  induction rounds with
  | zero =>
    intro i result s h
    unfold setupConnections
    split
    · trivial
    · exact h
  | succ rounds ih =>
    intro i result s h
    rw [setupConnections]
    split
    · split
      · exact h.of_same ⟨fun _ => rfl, .refl _⟩
      · rename_i id ids hsome
        cases hconnect : connectSlot (callbacks net opts) id (setIds ids s) with
        | mk connected s' =>
          obtain ⟨hslot, hopened⟩ := h.connectSlot hconnect
          dsimp only
          split
          · exact hslot.of_same ⟨fun _ => rfl, .refl _⟩
          · rename_i hconnected
            rw [not_or, not_lt] at hconnected
            have hopen : Live s' id := (hopened hconnected.2).2
            have hcount : Settled (countConnected id s') :=
              hslot.of_same ⟨fun _ => rfl, .refl _⟩
            split
            · exact ih (hcount.reaplanConnClose hopen)
            · have hset : Settled (setExpires id expires (countConnected id s')) :=
                hcount.of_same (.setConn _ rfl)
              have hevents := setEvents_slots (base + i) id
                (setExpires id expires (countConnected id s'))
              split
              · trivial
              · rename_i next s'' hresult
                exact ih (hset.of_same (hevents.of_ok hresult))
    · exact h

/-- In the midst of a batch, with `n` events to come: what has been received is
on connections that will be closed, and of which no more is read. -/
structure Batch (opts : BgrabOpts) (reads : ℕ → Prop) (n : ℕ) (s : State (Ctx World Dst)) :
    Prop where
  books : Books (Live s) s.world
  queued : ∀ i, Live s i → (s.world.conns i).nread ≠ 0 → i ∈ s.ctx.closeconns ∧ ¬ reads i
  nodup : s.ctx.closeconns.Nodup
  isLive : ∀ i ∈ s.ctx.closeconns, Live s i
  room : s.ctx.closeconns.length + n ≤ opts.connectsPerTick.toNat

/-- While an event of the slot `i` is handled: the slot need not be in the queue
yet, but there is room for it. -/
structure Handling (opts : BgrabOpts) (reads : ℕ → Prop) (i n : ℕ) (s : State (Ctx World Dst)) :
    Prop where
  books : Books (Live s) s.world
  isOpen : Live s i
  queued : ∀ j ≠ i, Live s j → (s.world.conns j).nread ≠ 0 → j ∈ s.ctx.closeconns ∧ ¬ reads j
  own : (s.world.conns i).nread ≠ 0 → ¬ reads i
  nodup : s.ctx.closeconns.Nodup
  isLive : ∀ j ∈ s.ctx.closeconns, Live s j
  room : (i ∈ s.ctx.closeconns ∧ s.ctx.closeconns.length + n ≤ opts.connectsPerTick.toNat) ∨
    s.ctx.closeconns.length + (n + 1) ≤ opts.connectsPerTick.toNat

variable {reads : ℕ → Prop} {n : ℕ}

theorem Handling.batch (h : Handling opts reads i n s)
    (hown : (s.world.conns i).nread ≠ 0 → i ∈ s.ctx.closeconns) : Batch opts reads n s := by
  refine ⟨h.books, fun j hj hread => ?_, h.nodup, h.isLive, ?_⟩
  · by_cases hij : j = i
    · subst hij
      exact ⟨hown hread, h.own hread⟩
    · exact h.queued j hij hj hread
  · rcases h.room with hroom | hroom
    · exact hroom.2
    · omega

theorem Handling.enqueue (h : Handling opts reads i n s) :
    Ends (fun _ => True)
      (fun after => Handling opts reads i n after ∧ i ∈ after.ctx.closeconns ∧
        Live after = Live s ∧ after.world = s.world)
      (enqueueCloseConn (rpopts opts) i s) := by
  unfold enqueueCloseConn
  have hlimit : (rpopts opts).connectsPerTick = opts.connectsPerTick := rfl
  rw [hlimit]
  by_cases hin : i ∈ s.ctx.closeconns
  · rw [if_pos hin, ite_self]
    exact ⟨h, hin, rfl, rfl⟩
  · have hroom := h.room.resolve_left fun hroom => hin hroom.1
    rw [if_neg (by omega), if_neg hin, if_pos (by omega)]
    refine ⟨⟨h.books, h.isOpen, fun j hj hlive hread => ?_, h.own, ?_, fun j hj => ?_, .inl ⟨?_, ?_⟩⟩,
      ?_, rfl, rfl⟩
    · obtain ⟨hqueued, hno⟩ := h.queued j hj hlive hread
      exact ⟨List.mem_append_left _ hqueued, hno⟩
    · rw [List.nodup_append_comm]
      exact List.nodup_cons.mpr ⟨hin, h.nodup⟩
    · cases List.mem_append.mp hj with
      | inl hj => exact h.isLive j hj
      | inr hj => exact List.mem_singleton.mp hj ▸ h.isOpen
    · exact List.mem_append_right _ List.mem_cons_self
    · rw [List.length_append, List.length_singleton]
      omega
    · exact List.mem_append_right _ List.mem_cons_self

structure Kept (opts : BgrabOpts) (reads : ℕ → Prop) (n : ℕ) (s after : State (Ctx World Dst)) :
    Prop where
  batch : Batch opts reads n after
  live : Live after = Live s

theorem Handling.of_same (h : Handling opts reads i n s) (hsame : SameSlots s s')
    (hqueue : s'.ctx.closeconns = s.ctx.closeconns) : Handling opts reads i n s' := by
  obtain ⟨hbooks, hopen, hqueued, hown, hnodup, hlive, hroom⟩ := h
  rw [← hsame.live] at hopen hqueued hlive
  rw [← hsame.books.conns] at hqueued hown
  rw [← hqueue] at hqueued hnodup hlive hroom
  refine ⟨?_, hopen, hqueued, hown, hnodup, hlive, hroom⟩
  rw [hsame.live]
  exact hbooks.of_same hsame.books

theorem Handling.kept_enqueue (h : Handling opts reads i n s) :
    Ends (fun _ => True) (Kept opts reads n s) (enqueueCloseConn (rpopts opts) i s) :=
  h.enqueue.mono fun _ hafter => ⟨hafter.1.batch fun _ => hafter.2.1, hafter.2.2.1⟩

theorem Handling.kept_tls (h : Handling opts reads i n s)
    (hown : (s.world.conns i).nread ≠ 0 → i ∈ s.ctx.closeconns) :
    Ends (fun _ => True) (Kept opts reads n s)
      (handleTlsHandshake (callbacks net opts) (rpopts opts) i s) := by
  unfold handleTlsHandshake
  dsimp only
  split
  · trivial
  · have hsame : SameSlots s { s with world := ((callbacks net opts).sslConnect i s.world).2 } :=
      ⟨fun _ => rfl, ⟨rfl, rfl, rfl, rfl, rfl⟩⟩
    have h' := h.of_same hsame rfl
    have hstay : Kept opts reads n s
        { s with world := ((callbacks net opts).sslConnect i s.world).2 } :=
      ⟨h'.batch hown, rfl⟩
    cases ((callbacks net opts).sslConnect i s.world).1 with
    | wantWrite => exact hstay
    | wantRead => exact hstay
    | failure => exact h'.kept_enqueue.mono fun _ hkept => ⟨hkept.batch, hkept.live⟩
    | shutdown => exact h'.kept_enqueue.mono fun _ hkept => ⟨hkept.batch, hkept.live⟩
    | done =>
      dsimp only
      split
      · trivial
      · have hflags : ∀ conn : ReaplanConn, conn.fd = (s.ctx.conns i).fd →
            Kept opts reads n s (Net.Reaplan.setConn i conn
              { s with world := ((callbacks net opts).sslConnect i s.world).2 }) := by
          intro conn hfd
          have hset := hsame.trans (.setConn _ hfd)
          exact ⟨(h.of_same hset rfl).batch hown, hset.live⟩
        exact hflags _ rfl

theorem Handling.kept_read (laws : net.Lawful opts) (h : Handling opts reads i n s)
    (hno : ¬ reads i)
    (hzero : (s.world.conns i).nread = 0) :
    Ends (fun _ => True) (Kept opts reads n s)
      (handleReadable (callbacks net opts) (rpopts opts) i s) := by
  obtain ⟨hbooks, hothers, hdone⟩ := h.books.onReadable laws h.isOpen hzero
  have h' : Handling opts reads i n { s with world := (Bgrab.onReadable net i s.world).2 } := by
    refine ⟨hbooks, h.isOpen, fun j hj hlive hread => ?_, fun _ => hno, h.nodup, h.isLive, h.room⟩
    rw [hothers j hj] at hread
    exact h.queued j hj hlive hread
  show Ends _ _ (afterCallback (rpopts opts) i (Bgrab.onReadable net i s.world).1
    { s with world := (Bgrab.onReadable net i s.world).2 })
  unfold afterCallback
  split
  · exact h'.kept_enqueue.mono fun _ hkept => ⟨hkept.batch, hkept.live⟩
  · rename_i hstays
    refine ⟨h'.batch fun hread => ?_, rfl⟩
    exact absurd (.inl (hdone hread)) hstays

theorem Handling.kept_write (h : Handling opts reads i n s)
    (hown : (s.world.conns i).nread ≠ 0 → i ∈ s.ctx.closeconns) :
    Ends (fun _ => True) (Kept opts reads n s)
      (handleWritable (callbacks net opts) (rpopts opts) i s) := by
  obtain ⟨hbooks, hnread⟩ := @Books.onWritable _ _ net _ _ h.books i h.isOpen
  have h' : Handling opts reads i n { s with world := (Bgrab.onWritable net i s.world).2 } := by
    refine ⟨hbooks, h.isOpen, fun j hj hlive hread => ?_, fun hread => ?_, h.nodup, h.isLive, h.room⟩
    · dsimp only at hread
      rw [hnread] at hread
      exact h.queued j hj hlive hread
    · dsimp only at hread
      rw [hnread] at hread
      exact h.own hread
  show Ends _ _ (afterCallback (rpopts opts) i (Bgrab.onWritable net i s.world).1
    { s with world := (Bgrab.onWritable net i s.world).2 })
  unfold afterCallback
  split
  · exact h'.kept_enqueue.mono fun _ hkept => ⟨hkept.batch, hkept.live⟩
  · refine ⟨h'.batch fun hread => ?_, rfl⟩
    rw [hnread] at hread
    exact hown hread

def ReadsNext (ev : Kevent) (reads : ℕ → Prop) (i : ℕ) : Prop :=
  (ev.filter = .read ∧ ev.udata = i) ∨ reads i

theorem Batch.handling {ev : Kevent}
    (h : Batch opts (ReadsNext ev reads) (n + 1) s) (hopen : Live s ev.udata) :
    Handling opts reads ev.udata n s ∧
      ((s.world.conns ev.udata).nread ≠ 0 → ev.udata ∈ s.ctx.closeconns) := by
  refine ⟨⟨h.books, hopen, fun j _ hlive hread => ?_, fun hread hreads => ?_, h.nodup, h.isLive,
    .inr h.room⟩, fun hread => (h.queued _ hopen hread).1⟩
  · obtain ⟨hqueued, hno⟩ := h.queued j hlive hread
    exact ⟨hqueued, fun hreads => hno (.inr hreads)⟩
  · exact (h.queued _ hopen hread).2 (.inr hreads)

theorem handleEvent_kept (laws : net.Lawful opts) {ev : Kevent}
    (h : Batch opts (ReadsNext ev reads) (n + 1) s)
    (hopen : ev.filter ≠ .timer → Live s ev.udata)
    (honce : ev.filter = .read → ¬ reads ev.udata) :
    Ends (fun _ => True) (Kept opts reads n s)
      (handleEvent (callbacks net opts) (rpopts opts) s ev) := by
  unfold handleEvent
  dsimp only
  split
  · rename_i herror
    refine ((h.handling (hopen fun htimer => ?_)).1).kept_enqueue
    rw [htimer] at herror
    cases herror.2 <;> contradiction
  · cases hfilter : ev.filter with
    | read =>
      obtain ⟨hhandling, hown⟩ := h.handling (hopen (by rw [hfilter]; exact nofun))
      have hzero : (s.world.conns ev.udata).nread = 0 := by
        by_contra hread
        exact (h.queued _ hhandling.isOpen hread).2 (.inl ⟨hfilter, rfl⟩)
      have heof : Ends (fun _ => True)
          (fun after => Handling opts reads ev.udata n after ∧ Live after = Live s ∧
            after.world = s.world)
          (enqueueOnEof (rpopts opts) ev s) := by
        unfold enqueueOnEof
        split
        · exact hhandling.enqueue.mono fun _ hafter => ⟨hafter.1, hafter.2.2⟩
        · exact ⟨hhandling, rfl, rfl⟩
      refine Ends.bind heof ?_
      rintro s' ⟨h', hlive, hworld⟩
      have hzero' : (s'.world.conns ev.udata).nread = 0 := by rw [hworld, hzero]
      have hthen : ∀ after, Kept opts reads n s' after → Kept opts reads n s after :=
        fun after hkept => ⟨hkept.batch, hkept.live.trans hlive⟩
      split
      · exact (h'.kept_tls fun hread => absurd hzero' hread).mono hthen
      · split
        · exact (h'.kept_read laws (honce hfilter) hzero').mono hthen
        · exact ⟨h'.batch fun hread => absurd hzero' hread, hlive⟩
    | write =>
      obtain ⟨hhandling, hown⟩ := h.handling (hopen (by rw [hfilter]; exact nofun))
      dsimp only
      split
      · exact hhandling.kept_enqueue
      · split
        · exact hhandling.kept_tls hown
        · exact hhandling.kept_write hown
    | timer =>
      have hrest : Batch opts reads n s :=
        ⟨h.books, fun i hlive hread => ⟨(h.queued i hlive hread).1,
          fun hreads => (h.queued i hlive hread).2 (.inr hreads)⟩, h.nodup, h.isLive,
          (Nat.le_succ _).trans h.room⟩
      dsimp only
      split
      · exact ⟨⟨hrest.books, hrest.queued, hrest.nodup, hrest.isLive, hrest.room⟩, rfl⟩
      · exact ⟨hrest, rfl⟩

def Reads (evs : List Kevent) (i : ℕ) : Prop := ∃ ev ∈ evs, ev.filter = .read ∧ ev.udata = i

/-- The induction is on the events that are to come. -/
theorem foldlM_handleEvent_batch (laws : net.Lawful opts) (evs : List Kevent) :
    ∀ {s : State (Ctx World Dst)}, Batch opts (Reads evs) evs.length s →
      (∀ ev ∈ evs, ev.filter ≠ .timer → Live s ev.udata) →
      evs.Pairwise (fun ev ev' => ev.filter ≠ .timer → ev.udata = ev'.udata →
        ev.filter ≠ ev'.filter) →
      Ends (fun _ => True) (Batch opts (Reads []) 0)
        (evs.foldlM (handleEvent (callbacks net opts) (rpopts opts)) s) := by
  induction evs with
  | nil => exact fun h _ _ => h
  | cons ev evs ih =>
    intro s h hopen honce
    rw [List.pairwise_cons] at honce
    have hfirst : Batch opts (ReadsNext ev (Reads evs)) (evs.length + 1) s := by
      refine ⟨h.books, fun i hlive hread => ⟨(h.queued i hlive hread).1, fun hreads => ?_⟩,
        h.nodup, h.isLive, h.room⟩
      refine (h.queued i hlive hread).2 ?_
      cases hreads with
      | inl hev => exact ⟨ev, List.mem_cons_self, hev⟩
      | inr hevs =>
        obtain ⟨ev', hev', hreads⟩ := hevs
        exact ⟨ev', List.mem_cons_of_mem _ hev', hreads⟩
    rw [List.foldlM_cons]
    refine Ends.bind (handleEvent_kept laws hfirst (hopen ev List.mem_cons_self) ?_) ?_
    · rintro hfilter ⟨ev', hev', hfilter', hudata⟩
      refine honce.1 ev' hev' ?_ hudata.symm (hfilter.trans hfilter'.symm)
      rw [hfilter]
      exact nofun
    · intro s' hkept
      refine ih hkept.batch (fun ev' hev' hfilter => ?_) honce.2
      rw [hkept.live]
      exact hopen ev' (List.mem_cons_of_mem _ hev') hfilter

theorem handleEvents_settled (laws : net.Lawful opts) (h : Settled s)
    {evs : List Kevent} (hlength : evs.length ≤ opts.connectsPerTick.toNat)
    (hopen : ∀ ev ∈ evs, ev.filter ≠ .timer → Live s ev.udata)
    (honce : evs.Pairwise (fun ev ev' => ev.filter ≠ .timer → ev.udata = ev'.udata →
      ev.filter ≠ ev'.filter)) :
    Ends (fun _ => True) Settled
      (reaplanHandleEvents (callbacks net opts) (rpopts opts) evs s) := by
  have hstart : Batch opts (Reads evs) evs.length
      { s with ctx := { s.ctx with closeconns := [] } } := by
    refine ⟨h.books, fun i hlive hread => absurd (h.unread i hlive) hread, List.nodup_nil, ?_, ?_⟩
    · exact nofun
    · rw [List.length_nil, Nat.zero_add]
      exact hlength
  refine Ends.bind (foldlM_handleEvent_batch laws evs hstart hopen honce) fun s' h' => ?_
  exact closeQueue_settled _ s' h'.books h'.nodup h'.isLive fun i hlive hread =>
    (h'.queued i hlive hread).1

variable {r : Run (Ctx World Dst)}

theorem runHead_settled (rounds : ℕ) (h : Settled r.state) :
    Ends (fun _ => True) (fun after => Settled after.state)
      (runHead (callbacks net opts) (rpopts opts) rounds r) := by
  unfold runHead
  dsimp only
  split
  · exact h
  · split
    · have hexpires : Settled (nextExpires (callbacks net opts) (rpopts opts) r.expires r.state).2 := by
        unfold nextExpires
        split
        · exact h.of_same ⟨fun _ => rfl, ⟨rfl, rfl, rfl, rfl, rfl⟩⟩
        · exact h
      refine Ends.bind (setupConnections_settled r.nevs _ _ rounds hexpires) ?_
      rintro ⟨ret, newNevs, s⟩ hsetup
      dsimp only
      split
      · exact hsetup
      · exact Settled.of_same hsetup ⟨fun _ => rfl, .refl _⟩
    · exact h

theorem runKevent_settled (laws : net.Lawful opts) (wait : Bool)
    (h : Settled r.state) : Ends (fun _ => True) (fun after => Settled after.state)
      (runKevent (callbacks net opts) (rpopts opts) wait r) := by
  unfold runKevent
  cases hkevent : net.kevent r.state.ctx wait r.state.world.net with
  | mk polled n =>
    have hpolled : (callbacks net opts).kevent r.state.ctx wait r.state.world =
        (polled, { r.state.world with net := n }) := by
      show withNet (net.kevent r.state.ctx wait) r.state.world = _
      simp only [withNet, hkevent]
    rw [hpolled]
    have hread : ∀ evs, Settled
        ⟨{ r.state.ctx with evs := evs }, r.state.log, { r.state.world with net := n }⟩ :=
      fun evs => h.of_same ⟨fun _ => rfl, ⟨rfl, rfl, rfl, rfl, rfl⟩⟩
    cases polled with
    | interrupted => exact hread r.state.ctx.evs
    | failure => exact hread r.state.ctx.evs
    | events evs =>
      refine Ends.bind (handleEvents_settled laws (hread _)
        (laws.events_length hkevent) (fun ev hev hfilter => ?_) (laws.events_once hkevent)) ?_
      · exact (laws.events_open hkevent ev hev hfilter).2
      · intro s hhandled
        refine Ends.bind hhandled.updateTimer ?_
        rintro ⟨armed, s'⟩ h'
        exact h'

theorem step_settled (laws : net.Lawful opts) (rounds : ℕ)
    (h : Settled r.state) : Ends (fun _ => True) (fun after => Settled after.state)
      (step (callbacks net opts) (rpopts opts) rounds r) := by
  unfold step
  split
  · exact runHead_settled rounds h
  · exact runKevent_settled laws _ h
  · refine Ends.bind (Settled.updateTimer (h.of_same ⟨fun _ => rfl, .refl _⟩)) ?_
    rintro ⟨armed, s'⟩ h'
    exact h'

theorem runs_settled {reaplan : ReaplanCtx} (hinit : reaplanInit (rpopts opts) = some reaplan)
    (laws : net.Lawful opts) {dsts : List Dst} {n : World}
    (h : Runs (callbacks net opts) (rpopts opts) reaplan (start dsts n) r) : Settled r.state := by
  have hinv := fun hfresh hnext => @Reachable.invariant _ _ _ _ _
    (fun r : Run (Ctx World Dst) => Settled r.state) hfresh hnext r h
  refine hinv ?_ ?_
  · rintro r rfl
    have hclosed : ∀ i, ¬ Live (Run.fresh reaplan (start dsts n)).state i := by
      intro i hi
      have hfd : (reaplan.conns i).fd = -1 := by
        unfold reaplanInit at hinit
        split at hinit
        · cases hinit
        · obtain ⟨ids, -, hctx⟩ := Option.bind_eq_some_iff.mp hinit
          rw [← Option.some.inj hctx]
          rfl
      unfold Live at hi
      exact absurd (hfd ▸ hi) (by decide)
    refine ⟨⟨fun k => OneBanner.of_none rfl rfl, fun _ _ => rfl, fun i hi => absurd hi (hclosed i),
      fun i j k dst dst' hi => absurd hi (hclosed i)⟩, fun i hi => absurd hi (hclosed i)⟩
  · intro before rounds after hbefore _ hstep
    exact (step_settled laws rounds hbefore).of_ok hstep

/-- However the network behaves, the banners of a run, and of what is closed
behind it, are one for each destination. -/
theorem one_banner {reaplan : ReaplanCtx} (hinit : reaplanInit (rpopts opts) = some reaplan)
    (laws : net.Lawful opts) {dsts : List Dst} {n : World} {r : Run (Ctx World Dst)}
    (h : Runs (callbacks net opts) (rpopts opts) reaplan (start dsts n) r) (k : ℕ) :
    OneBanner r.state.world k ∧ OneBanner (reaplanCleanup net opts r.state).world k := by
  have hsettled := runs_settled hinit laws h
  have hclean : Settled (reaplanCleanup net opts r.state) := by
    refine List.foldlRecOn _ _ hsettled fun s h i _ => ?_
    exact h.closeIf fun hopen => hopen
  exact ⟨hsettled.books.banners k, hclean.books.banners k⟩

def sampleNetwork : Network Unit Unit where
  connect _ n := (5, n)
  sslNew n := (true, n)
  read _ n := (.bytes [104], n)
  payload _ n := (some [71], false, n)
  send _ _ n := (⟨1, false⟩, n)
  sslConnect _ n := (.failure, n)
  clock n := (some 100, n)
  kevent reaplan _ n :=
    if 0 ≤ (reaplan.conns 0).fd then
      (.events [⟨(reaplan.conns 0).fd, .write, false, false, true, .none, 1, 0⟩,
        ⟨(reaplan.conns 0).fd, .read, false, false, false, .none, 1, 0⟩], n)
    else (.failure, n)

def sampleOpts : BgrabOpts := ⟨2, 10, 2, 0, false⟩

def sampleReaplan : ReaplanCtx :=
  ⟨List.replicate 5 zeroKevent, ⟨false, 1, [BitVec.allOnes 32]⟩, fun _ => zeroConn, [], 0, 0,
    false, false, false⟩

theorem sampleNetwork_lawful : sampleNetwork.Lawful sampleOpts := by
  refine ⟨?_, ?_, ?_, ?_⟩
  · intro i n data n' h
    cases h
    decide
  · intro reaplan wait n evs n' h
    simp only [sampleNetwork] at h
    split at h
    · cases h
      exact le_refl 2
    · cases h
  · intro reaplan wait n evs n' h ev hev hfilter
    simp only [sampleNetwork] at h
    split at h
    · rename_i hopen
      cases h
      rw [List.mem_cons, List.mem_singleton] at hev
      rcases hev with rfl | rfl
      · exact ⟨Nat.two_pos, hopen⟩
      · exact ⟨Nat.two_pos, hopen⟩
    · cases h
  · intro reaplan wait n evs n' h
    simp only [sampleNetwork] at h
    split at h
    · cases h
      simp
    · cases h

theorem one_banner_sample : ∃ r : Run (Ctx Unit Unit),
    r.state.world.banners = [(0, [104])] ∧ OneBanner r.state.world 0 ∧
      OneBanner (reaplanCleanup sampleNetwork sampleOpts r.state).world 0 := by
  have hstart : Runs (callbacks sampleNetwork sampleOpts) (rpopts sampleOpts) sampleReaplan
      (start [()] ()) _ := Runs.next 0 (.initial rfl) rfl
  have hhead : Runs (callbacks sampleNetwork sampleOpts) (rpopts sampleOpts) sampleReaplan
      (start [()] ()) _ := Runs.next 4 hstart rfl
  have hkevent : Runs (callbacks sampleNetwork sampleOpts) (rpopts sampleOpts) sampleReaplan
      (start [()] ()) _ := Runs.next 0 hhead rfl
  exact ⟨_, rfl, one_banner rfl sampleNetwork_lawful hkevent 0⟩

end Yans.Apps.Bgrab
