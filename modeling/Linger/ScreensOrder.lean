import Linger.ScreensAlike

/-! A share is in order when it and its watchers are as `choose` has them. Each
operation puts out of order at most the shares it then settles. -/
namespace Linger.Screens
open FiniteMap

variable {β : Type}

namespace Board
variable {b b' : Board β} {t : SessionId}

/-- What `f` reads off the watches of `t`. -/
def seen {δ : Type} (t : SessionId) (f : Watch → δ) (w : Watch) : Option δ :=
  if w.target = some t then some (f w) else none

/-- What a watch counts for where `t` is settled. -/
def view (t : SessionId) : Watch → Option (List ScreenCodec × Option ScreenCodec × Bool) :=
  seen t fun w => (w.decode, w.codec, w.sound)

theorem view_other {w : Watch} (h : ¬w.target = some t) : view t w = none := if_neg h

theorem view_core {w w' : Watch} (h : w'.core = w.core) : view t w' = view t w := by
  simp only [Watch.core, Prod.mk.injEq] at h
  obtain ⟨-, ht, hd, hc, hs, -⟩ := h
  rw [view, seen, seen, ht, hd, hc, hs]

theorem watchersOf_map {δ : Type} (f : Watch → δ) (b : Board β) (t : SessionId) :
    (b.watchersOf t).map f = (vals b.watches).filterMap (seen t f) := by
  rw [watchersOf, ← List.filterMap_eq_map, List.filterMap_filter]
  refine List.filterMap_congr fun w _ => ?_
  by_cases ht : w.target = some t
  · simp [seen, ht]
  · simp [seen, ht]

/-- Two boards on which the watches of `t` read the same list the same of them. -/
theorem watchersOf_congr {δ : Type} (f : Watch → δ)
    (hv : ∀ s : SessionId, (b'.watches[s]?).bind (seen t f) = (b.watches[s]?).bind (seen t f)) :
    (b'.watchersOf t).map f = (b.watchersOf t).map f := by
  rw [watchersOf_map, watchersOf_map, vals_filterMap_congr _ _ hv]

theorem any_sound (l : List Watch) : l.any Watch.sound = (l.map Watch.sound).any id := by
  rw [List.any_map]
  rfl

/-- A share in order: its formats and its watchers' are what `choose` makes of
them, and it is to send its sound when that has somebody to go to. -/
structure InOrder (b : Board β) (t : SessionId) (share : Share β) : Prop where
  formats : choose share.encode (b.decodesFor t) =
    (share.wanted, (b.watchersOf t).map Watch.codec)
  sounding : share.sounding = (share.sound && (b.watchersOf t).any Watch.sound)

theorem views_congr
    (hv : ∀ s : SessionId, (b'.watches[s]?).bind (view t) = (b.watches[s]?).bind (view t)) :
    b'.decodesFor t = b.decodesFor t ∧
      (b'.watchersOf t).map Watch.codec = (b.watchersOf t).map Watch.codec ∧
      (b'.watchersOf t).any Watch.sound = (b.watchersOf t).any Watch.sound := by
  have hall := watchersOf_congr (fun w => (w.decode, w.codec, w.sound)) hv
  have hpart {δ : Type} (g : List ScreenCodec × Option ScreenCodec × Bool → δ) :=
    congrArg (List.map g) hall
  simp only [List.map_map] at hpart
  refine ⟨hpart fun v => v.1, hpart fun v => v.2.1, ?_⟩
  rw [any_sound, any_sound]
  exact congrArg (fun l => l.any id) (hpart fun v => v.2.2)

theorem InOrder.congr {share share' : Share β} (h : InOrder b t share) (hs : share.Same share')
    (hv : ∀ s : SessionId, (b'.watches[s]?).bind (view t) = (b.watches[s]?).bind (view t)) :
    InOrder b' t share' := by
  obtain ⟨hdecodes, hcodecs, hsounds⟩ := views_congr hv
  refine ⟨?_, ?_⟩
  · rw [hs.encode, hs.wanted, hdecodes, hcodecs]
    exact h.formats
  · rw [hs.sounding, hs.sound, hsounds]
    exact h.sounding

/-- Every share was told what it is to make, and is in order but for those
still to be settled. -/
structure OrderedBut (b : Board β) (late : SessionId → Prop) : Prop where
  told : ∀ (t : SessionId) (share : Share β), b.shares[t]? = some share → share.Told
  order : ∀ (t : SessionId) (share : Share β), b.shares[t]? = some share → ¬late t →
    InOrder b t share

theorem OrderedBut.mono {late late' : SessionId → Prop} (h : b.OrderedBut late)
    (hl : ∀ t, late t → late' t) : b.OrderedBut late' :=
  ⟨h.told, fun t share hs hn => h.order t share hs fun hl' => hn (hl t hl')⟩

theorem Share.Same.keepsTold {share share' : Share β} (hs : share.Same share') (h : share.Told) :
    share'.Told := by
  unfold Share.Told
  rw [hs.told, hs.wanted, hs.sounding]
  exact h

theorem OrderedBut.alike {late : SessionId → Prop} (h : b.OrderedBut late) (ha : Alike b b') :
    b'.OrderedBut late := by
  refine ⟨fun t share' hs' => ?_, fun t share' hs' hn => ?_⟩
  · obtain ⟨share, hs, hsame⟩ := ha.shares t share' hs'
    exact Share.Same.keepsTold hsame (h.told t share hs)
  obtain ⟨share, hs, hsame⟩ := ha.shares t share' hs'
  refine (h.order t share hs hn).congr hsame fun s => ?_
  have hw := ha.watches s
  cases hs' : b'.watches[s]? with
  | none =>
    rw [hs', Option.map_none, eq_comm, Option.map_eq_none_iff] at hw
    rw [hw]
  | some w' =>
    rw [hs', Option.map_some, eq_comm, Option.map_eq_some_iff] at hw
    obtain ⟨w, hw, hc⟩ := hw
    rw [hw]
    exact view_core hc.symm

/-- Changes that leave every share that is not late as it was, and whoever
watches it, leave the rest in order. -/
theorem OrderedBut.change {late : SessionId → Prop} (h : b.OrderedBut fun _ => False)
    (htold : ∀ (t : SessionId) (share : Share β), b'.shares[t]? = some share → share.Told)
    (hs : ∀ (t : SessionId) (share : Share β), b'.shares[t]? = some share → ¬late t →
      b.shares[t]? = some share)
    (hv : ∀ t, ¬late t → (b'.shares[t]?).isSome → ∀ s : SessionId,
      (b'.watches[s]?).bind (view t) = (b.watches[s]?).bind (view t)) :
    b'.OrderedBut late := by
  refine ⟨htold, fun t share hshare hn => ?_⟩
  refine (h.order t share (hs t share hshare hn) id).congr (Share.Same.refl share) (hv t hn ?_)
  rw [hshare]
  rfl

theorem settled_codec (encode : List ScreenCodec) {w : Watch} (hw : w.target = some t) :
    (b.settled t encode w).codec = pick encode (b.decodesFor t) w.decode ∧
      (b.settled t encode w).decode = w.decode := by
  unfold settled Watch.given
  rw [if_pos hw]
  split
  · exact ⟨rfl, rfl⟩
  · next h => exact ⟨not_not.mp h, rfl⟩

theorem settled_elsewhere (encode : List ScreenCodec) {u : SessionId} (hu : u ≠ t) (w : Watch) :
    view u (b.settled t encode w) = view u w := by
  have htarget := (settled_sound b t encode w).2
  by_cases hw : w.target = some t
  · have hne : ¬some t = some u := fun he => hu (Option.some.inj he).symm
    rw [view, seen, seen, htarget, hw, if_neg hne, if_neg hne]
  · rw [settled, if_neg hw]

theorem watchersOf_settle {share : Share β} (hb : b.shares[t]? = some share) (now : ℕ) :
    (b.settle t now).watchersOf t = (b.watchersOf t).map (b.settled t share.encode) := by
  have hw := (settle_of_some hb now).watches
  rw [watchersOf, watchersOf, hw, vals_map, List.filter_map]
  refine congrArg _ (List.filter_congr fun w _ => ?_)
  simp only [Function.comp_apply, (settled_sound b t share.encode w).2]

theorem settle_inOrder {share share' : Share β} (hb : b.shares[t]? = some share) (now : ℕ)
    (hencode : share'.encode = share.encode) (hsound : share'.sound = share.sound)
    (hwanted : share'.wanted = (choose share.encode (b.decodesFor t)).1)
    (hsounding : share'.sounding = b.listening t) : InOrder (b.settle t now) t share' := by
  have hin (w : Watch) (h : w ∈ b.watchersOf t) := settled_codec (b := b) share.encode
    ((mem_watchersOf b t w).mp h).2
  have hdecodes : (b.settle t now).decodesFor t = b.decodesFor t := by
    rw [decodesFor, decodesFor, watchersOf_settle hb, List.map_map]
    exact List.map_congr_left fun w h => (hin w h).2
  have hcodecs : ((b.settle t now).watchersOf t).map Watch.codec =
      (choose share.encode (b.decodesFor t)).2 := by
    rw [watchersOf_settle hb, choose_snd, decodesFor, List.map_map, List.map_map]
    exact List.map_congr_left fun w h => (hin w h).1
  refine ⟨?_, ?_⟩
  · rw [hencode, hdecodes, hwanted, hcodecs]
  · rw [hsounding, hsound, watchersOf_settle hb, List.any_map, listening, hb]
    have hany : (vals b.watches).any (fun w => w.sound && decide (w.target = some t)) =
        (b.watchersOf t).any Watch.sound := by
      rw [watchersOf, List.any_filter]
      exact List.any_congr rfl fun w => Bool.and_comm _ _
    rw [hany]
    refine congrArg₂ _ rfl (List.any_congr rfl fun w => ?_)
    exact (settled_sound b t share.encode w).1.symm

theorem settle_ordered {late : SessionId → Prop} (h : b.OrderedBut late) (t : SessionId) (now : ℕ) :
    (b.settle t now).OrderedBut fun s => late s ∧ s ≠ t := by
  cases hb : b.shares[t]? with
  | none =>
    rw [settle_of_none hb]
    refine ⟨h.told, fun u share hs hn => h.order u share hs fun hl => hn ⟨hl, ?_⟩⟩
    rintro rfl
    rw [hb] at hs
    cases hs
  | some share =>
    obtain ⟨hw, -, -, share', hshares, -, hencode, hsound, -, hwanted, hsounding, htold⟩ :=
      settle_of_some hb now
    have hat (u : SessionId) : (b.settle t now).shares[u]? =
        if u = t then some share' else b.shares[u]? := by
      rw [hshares, insert_at]
    refine ⟨fun u s hs => ?_, fun u s hs hn => ?_⟩
    · rw [hat] at hs
      split at hs
      · cases hs
        exact htold (h.told t share hb)
      · exact h.told u s hs
    · rw [hat] at hs
      by_cases hu : u = t
      · subst hu
        rw [if_pos rfl] at hs
        cases hs
        exact settle_inOrder hb now hencode hsound hwanted hsounding
      · rw [if_neg hu] at hs
        refine (h.order u s hs fun hl => hn ⟨hl, hu⟩).congr (Share.Same.refl s) fun a => ?_
        rw [hw, Std.ExtTreeMap.getElem?_map]
        cases b.watches[a]? with
        | none => rfl
        | some w => exact settled_elsewhere share.encode hu w

end Board
end Linger.Screens
