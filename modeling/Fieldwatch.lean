import Fieldwatch.Endpoint
import Fieldwatch.Server
import Fieldwatch.Settings.Document
import Fieldwatch.Proofs.Interest.Change
import Fieldwatch.Proofs.Interest.Consistency
import Fieldwatch.Proofs.Interest.Commuting
import Fieldwatch.Proofs.Interest.Telling
import Fieldwatch.Proofs.Interest.News
import Fieldwatch.Proofs.Interest.Hearing
import Fieldwatch.Proofs.Interest.Sufficiency
import Fieldwatch.Proofs.Interest.Index
import Fieldwatch.Proofs.Interest.Record
import Fieldwatch.Proofs.Interest.Recall
import Fieldwatch.Proofs.Interest.Gate
import Fieldwatch.Proofs.Interest.Seniority
import Fieldwatch.Proofs.Npc.Numbering
import Fieldwatch.Proofs.Npc.Stepping
import Fieldwatch.Proofs.Field.Places
import Fieldwatch.Proofs.Field.Runs
import Fieldwatch.Proofs.Field.Agreement
import Fieldwatch.Proofs.Field.Motion
import Fieldwatch.Proofs.Field.Tables
import Fieldwatch.Proofs.Field.Feeding
import Fieldwatch.Proofs.Field.Replay
import Fieldwatch.Proofs.Field.Confluence
import Fieldwatch.Proofs.Field.Carrying
import Fieldwatch.Proofs.Command.Decoding
import Fieldwatch.Proofs.Field.Envelopes
import Fieldwatch.Proofs.Sessions.Traffic
import Fieldwatch.Proofs.Field.Steering
import Fieldwatch.Proofs.Worker.Accounting
import Fieldwatch.Proofs.Npc.Histories
import Fieldwatch.Proofs.Npc.Lifecycle
import Fieldwatch.Proofs.Field.Population
import Fieldwatch.Proofs.Field.Timeline
import Fieldwatch.Proofs.Field.Pacing
import Fieldwatch.Proofs.Field.Attention
import Fieldwatch.Proofs.Npc.Outcomes
import Fieldwatch.Proofs.Npc.Tidings
import Fieldwatch.Proofs.Npc.Cadence
import Fieldwatch.Proofs.Field.Moments
import Fieldwatch.Proofs.Field.Reports
import Fieldwatch.Proofs.Field.Silence
import Fieldwatch.Proofs.Field.Deaths
import Fieldwatch.Proofs.Sessions.Delivery
import Fieldwatch.Proofs.Field.Counting
import Fieldwatch.Proofs.Worker.Upkeep
import Fieldwatch.Proofs.Roster.Populations
import Fieldwatch.Proofs.Worker.Tenure
import Fieldwatch.Proofs.Worker.Course
import Fieldwatch.Proofs.Worker.Shutdown
import Fieldwatch.Proofs.Worker.Crew
import Fieldwatch.Proofs.Roster.Office
import Fieldwatch.Proofs.Roster.Registration
import Fieldwatch.Proofs.Roster.Standing
import Fieldwatch.Proofs.Interest.Surroundings
import Fieldwatch.Proofs.Field.Leaving
import Fieldwatch.Proofs.Field.Footing
import Fieldwatch.Proofs.Field.Rejection
import Fieldwatch.Proofs.Schedule.Rounds
import Fieldwatch.Proofs.Schedule.Beats
import Fieldwatch.Proofs.Player.Headings
import Fieldwatch.Proofs.Field.Bounds
import Fieldwatch.Proofs.Field.Populating
import Fieldwatch.Proofs.Counters.Percentiles
import Fieldwatch.Proofs.Number.Notation
import Fieldwatch.Proofs.Number.Decimal
import Fieldwatch.Proofs.Settings.Periods
import Fieldwatch.Proofs.Exposition.Samples
