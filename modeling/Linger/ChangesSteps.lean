import Linger.ChangesSettle

/-! What each step of a client, of its server and of what is between them leaves of what is
shown. -/
namespace Linger.Changes
open FiniteMap StepMachine TaskPool OnceList

section Client
variable {meId : UserId} {st st' : State} {item : Item} {i j : ℕ} {request : Request}

end Client

section Fetches
variable {meId : UserId} {st st' : State} {item : Item} {j : ℕ} {asked : Asked}
  {e : Asked × Option Part}

end Fetches

section Server
variable {meId : UserId} {st st' : State} {item written : Item} {i n : ℕ} {on : Bool}

end Server

section Delivered
variable {meId : UserId} {st st' : State} {frame : Frame} {channel : List Frame} {j : ℕ}

end Delivered

section Before
variable {meId : UserId} {st st' rest : State} {item : Item} {part : Part} {i n : ℕ}
  {r : NotifyRule} {on : Bool}

/-- What is sure without something is sure after it is gone. -/
theorem Sure.keeps {value : Bool} (h : Sure meId rest item value) (hfacts : st'.facts = rest.facts)
    (howed : st'.owed = rest.owed) (hchannel : st'.channel = rest.channel)
    (hfetches : st'.fetches = rest.fetches)
    (hpending : Pending meId rest item value → Pending meId st' item value) :
    Sure meId st' item value := by
  have hholds : holds st' item = holds rest item := by rw [holds, holds, hfacts]
  rcases h with heq | htold | hfetched | hp
  · exact .inl (heq.trans hholds.symm)
  · refine .inr (.inl ?_)
    rw [Told, said, howed, hfacts, hchannel, hholds]
    exact htold
  · exact .inr (.inr (.inl (hfetched.keeps hfacts hchannel hfetches)))
  · exact .inr (.inr (.inr (hpending hp)))

theorem Remembers.insert (h : Remembers st) {request request' : Request}
    (hi : (st.requests[i]? : Option Request) = some request)
    (hchange : request'.change = request.change) (hbefore : request'.before = request.before) :
    All (st.requests.insert i request') fun request => ∃ s given,
      request.before = Store.before s given request.change := by
  refine All.insert h i ?_
  rw [hchange, hbefore]
  exact h i request hi

end Before
end Linger.Changes
