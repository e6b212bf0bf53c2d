import Seam.Files.Disk
import Seam.Main
import Seam.Proofs.Course
import Seam.Proofs.Trail
import Seam.Proofs.Kept
import Seam.Proofs.Reading
import Seam.Proofs.Trip
import Seam.Proofs.Answer
import Seam.Proofs.Clearance
import Seam.Proofs.Shed
import Seam.Proofs.Pace
import Seam.Proofs.Resets
import Seam.Proofs.Endings
import Seam.Proofs.Dip
import Seam.Proofs.Picture
import Seam.Proofs.Brackets
import Seam.Proofs.Account
import Seam.Proofs.Slope
import Seam.Proofs.Longest
import Seam.Proofs.Parting
import Seam.Proofs.Shape
import Seam.Proofs.Stride
import Seam.Proofs.Floor
import Seam.Proofs.Grammar
import Seam.Proofs.Normal
import Seam.Proofs.Restoring
import Seam.Proofs.Saved
