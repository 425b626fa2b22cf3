import Piezo.Main
import Piezo.Session
import Piezo.Speaker
import Piezo.Proofs.Playback
import Piezo.Proofs.Schedule
import Piezo.Proofs.Score
import Piezo.Proofs.Admission
import Piezo.Proofs.Seats
import Piezo.Proofs.Accounted
import Piezo.Proofs.Exclusive
import Piezo.Proofs.Starts
import Piezo.Proofs.Voices
import Piezo.Proofs.Audible
import Piezo.Proofs.Shift
import Piezo.Proofs.Wraparound
import Piezo.Proofs.Agree
import Piezo.Proofs.Scene
import Piezo.Proofs.Separation
import Piezo.Proofs.Utf8
import Piezo.Proofs.Lexemes
import Piezo.Proofs.Spelling
import Piezo.Proofs.Reading
import Piezo.Proofs.Restart
import Piezo.Proofs.Calls
import Piezo.Proofs.Legal
import Piezo.Proofs.Copying
import Piezo.Proofs.Finale
import Piezo.Proofs.SettingsText
import Piezo.Proofs.Exporting
import Piezo.Proofs.Timing
import Piezo.Proofs.Cues
import Piezo.Proofs.Beeping
import Piezo.Proofs.Sweeping
import Piezo.Proofs.Wailing
import Piezo.Proofs.Pacing
import Piezo.Proofs.Completion
import Piezo.Proofs.Standstill
import Piezo.Proofs.Pieces
import Piezo.Proofs.Limits
import Piezo.Proofs.Colons
import Piezo.Proofs.Fields
import Piezo.Proofs.Spacing
import Piezo.Proofs.Distrust
import Piezo.Proofs.Mixing
import Piezo.Proofs.Unison
import Piezo.Proofs.Overrides
import Piezo.Proofs.Numerals
import Piezo.Proofs.Parameters
import Piezo.Proofs.Phrases
import Piezo.Proofs.Helping
import Piezo.Proofs.Cursor
import Piezo.Proofs.Spending
import Piezo.Proofs.Indexing
import Piezo.Proofs.Tuning
